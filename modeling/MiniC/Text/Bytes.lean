/-!
# Bytes of a text

Offsets in a source text count UTF-8 bytes, lines count line feeds. Bytes that are not UTF-8 can
still be shown: U+FFFD stands for each longest run of them that begins a character without ending
it, and for each byte that begins none.
-/

namespace MiniC.Text

set_option autoImplicit false

/-- The number of bytes that `cs` takes in UTF-8. -/
def byteSize (cs : List Char) : Nat :=
  cs.foldl (fun size c => size + c.utf8Size) 0

def lineFeeds (cs : List Char) : Nat :=
  cs.count '\n'

@[simp] theorem byteSize_nil : byteSize [] = 0 := rfl

theorem foldl_utf8Size (cs : List Char) (size : Nat) :
    cs.foldl (fun size c => size + c.utf8Size) size =
      size + cs.foldl (fun size c => size + c.utf8Size) 0 := by
  induction cs generalizing size with
  | nil => rfl
  | cons c cs ih =>
    simp only [List.foldl_cons]
    rw [ih (size + c.utf8Size), ih (0 + c.utf8Size)]
    omega

@[simp] theorem byteSize_cons (c : Char) (cs : List Char) :
    byteSize (c :: cs) = c.utf8Size + byteSize cs := by
  simp only [byteSize, List.foldl_cons]
  rw [foldl_utf8Size, Nat.zero_add]

@[simp] theorem byteSize_append (as bs : List Char) :
    byteSize (as ++ bs) = byteSize as + byteSize bs := by
  induction as with
  | nil => simp
  | cons a as ih => simp only [List.cons_append, byteSize_cons, ih, Nat.add_assoc]

@[simp] theorem lineFeeds_append (as bs : List Char) :
    lineFeeds (as ++ bs) = lineFeeds as + lineFeeds bs := by
  simp [lineFeeds]

def bytes (s : String) : List UInt8 :=
  s.toUTF8.data.toList

/-- The text with the given bytes, if they are UTF-8. -/
def ofBytes? (bs : List UInt8) : Option String :=
  String.fromUTF8? ⟨bs.toArray⟩

/-- The ranges of the bytes that follow `first` in a character. -/
def following (first : UInt8) : List (UInt8 × UInt8) :=
  let any := (0x80, 0xBF)
  if first < 0xC2 then []
  else if first < 0xE0 then [any]
  else if first = 0xE0 then [(0xA0, 0xBF), any]
  else if first = 0xED then [(0x80, 0x9F), any]
  else if first < 0xF0 then [any, any]
  else if first = 0xF0 then [(0x90, 0xBF), any, any]
  else if first < 0xF4 then [any, any, any]
  else if first = 0xF4 then [(0x80, 0x8F), any, any]
  else []

/-- The number of leading bytes that are in the given ranges, one by one. -/
def fitting : List (UInt8 × UInt8) → List UInt8 → Nat
  | (low, high) :: ranges, b :: bs => if low ≤ b ∧ b ≤ high then fitting ranges bs + 1 else 0
  | _, _ => 0

/-- The characters that show `bs`, of which the first `done` bytes are already shown. -/
def shown : Nat → List UInt8 → List Char
  | _, [] => []
  | done + 1, _ :: bs => shown done bs
  | 0, b :: bs =>
    let more := fitting (following b) bs
    ((ofBytes? (b :: bs.take more)).getD "\uFFFD").toList ++ shown more bs

def lossy (bs : List UInt8) : String :=
  String.ofList (shown 0 bs)

end MiniC.Text

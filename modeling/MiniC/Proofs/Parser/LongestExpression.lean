import MiniC.Parser.Expr
import MiniC.Proofs.Parser.Locality

/-!
# Readers take the longest expression

The parser does not stop within a spelling: where an operand is spelled, it reads the operand or
fails, and where an operator follows, it goes on. Together with its looking one token ahead this
makes what it reads the longest expression. If a longer one were spelled from the same place, the
tokens up to its end would be read up to the shorter end too. Every call of a reader stops in this
way, whatever the calls before it came to.
-/

namespace MiniC.Parser

set_option autoImplicit false

section Through

variable {suffix : List Token} {F : Except Failure (Expr × List Token)}

/-- If operators and operands can be read behind what `F` reads, then up to an end that is reached
from `suffix` as well. -/
def EndsBefore (F : Except Failure (Expr × List Token)) (suffix : List Token) : Prop :=
  ∀ (f : Expr → Expr) (result : Expr × List Token),
    (F >>= fun x => outcome (chain (f x.1) x.2)) = .ok result →
    ∃ e, outcome (chain e suffix) = .ok result

theorem endsBefore_ok (e : Expr) (suffix : List Token) : EndsBefore (.ok (e, suffix)) suffix := by
  intro f result h
  exact ⟨f e, h⟩

theorem endsBefore_error (f : Failure) (suffix : List Token) :
    EndsBefore (.error f) suffix := by
  intro f' result h
  cases h

theorem EndsBefore.unary (h : EndsBefore F suffix) (op : UnaryOp) :
    EndsBefore (F >>= fun x => .ok (.unary op x.1, x.2)) suffix := by
  intro f result hread
  apply h (fun e => f (.unary op e)) result
  cases F with
  | error e => exact hread
  | ok x => exact hread

/-- An operator and its right operand can be passed over. -/
theorem EndsBefore.operand {mark : Token} {op : BinaryOp} {rs : List Token}
    (h : EndsBefore F (mark :: (rs ++ suffix))) (hm : mark.kind = op.kind)
    (hr : EndsBefore (outcome (operand (rs ++ suffix))) suffix) : EndsBefore F suffix := by
  intro f result hread
  obtain ⟨e, he⟩ := h f result hread
  rw [outcome_chain_of_some (BinaryOp.ofKind?_eq_some_iff.mpr hm)] at he
  exact hr (e.attach op) result he

theorem atom_unary {mark : Token} {op : UnaryOp} (h : mark.kind = op.kind) (ts : List Token) :
    outcome (atom (mark :: ts)) = .error (.at .expression (mark :: ts)) := by
  rw [outcome_atom_cons]
  cases op <;> simp only [h, UnaryOp.kind]

theorem leaf_endsBefore {e : Expr} {ts : List Token} (hs : e.Spelled ts) (hc : e.Canonical)
    (ha : e.IsAtom) (hsuffix : NoStep suffix) :
    EndsBefore (outcome (atom (ts ++ suffix))) suffix ∧
      EndsBefore (outcome (operand (ts ++ suffix))) suffix := by
  rw [atom_complete hs hc ha hsuffix, operand_complete hs hc ha.isOperand hsuffix]
  exact ⟨endsBefore_ok e suffix, endsBefore_ok e suffix⟩

/-- An expression in parentheses is read up to the closing one. -/
theorem group_endsBefore {opening closing : Token} {ts : List Token}
    (hopening : opening.kind = .parenLeft) (hclosing : closing.kind = .parenRight)
    (h : EndsBefore (outcome (operand (ts ++ closing :: suffix))) (closing :: suffix)) :
    EndsBefore (outcome (atom (opening :: (ts ++ closing :: suffix)))) suffix := by
  intro f result hread
  rw [outcome_atom_cons] at hread
  simp only [hopening] at hread
  obtain ⟨⟨e, left⟩, hatom, hread⟩ := bind_eq_ok_iff.mp hread
  obtain ⟨⟨inner, left₁⟩, hinner, hatom⟩ := bind_eq_ok_iff.mp hatom
  obtain ⟨⟨_, left₂⟩, hexpect, hatom⟩ := bind_eq_ok_iff.mp hatom
  cases hatom
  have hop : BinaryOp.ofKind? closing.kind = none := by
    rw [hclosing]
    rfl
  rw [outcome_expression] at hinner
  obtain ⟨e', he'⟩ := h id _ hinner
  rw [outcome_chain_of_none hop] at he'
  cases he'
  rw [outcome_expect_cons hclosing] at hexpect
  cases hexpect
  exact ⟨_, hread⟩

/-- The parser does not stop within a spelling, be it canonical or not. -/
theorem spelled_endsBefore {e : Expr} {ts : List Token} (h : e.Spelled ts)
    (hsuffix : NoStep suffix) :
    EndsBefore (outcome (atom (ts ++ suffix))) suffix ∧
      EndsBefore (outcome (operand (ts ++ suffix))) suffix := by
  induction h generalizing suffix with
  | int kind value => exact leaf_endsBefore (.int kind value) trivial trivial hsuffix
  | float kind value => exact leaf_endsBefore (.float kind value) trivial trivial hsuffix
  | string kind => exact leaf_endsBefore (.string kind) trivial trivial hsuffix
  | name kind => exact leaf_endsBefore (.name kind) trivial trivial hsuffix
  | step kind step => exact leaf_endsBefore (.step kind step) trivial trivial hsuffix
  | unary kind _ ih =>
    rw [List.cons_append, atom_unary kind,
      outcome_operand_of_some (UnaryOp.ofKind?_eq_some_iff.mpr kind)]
    exact ⟨endsBefore_error _ suffix, (ih hsuffix).1.unary _⟩
  | binary _ kind _ ihl ihr =>
    rw [List.append_assoc, List.cons_append]
    obtain ⟨hatom, hoperand⟩ := ihl (noStep_binary kind _)
    obtain ⟨_, hright⟩ := ihr hsuffix
    exact ⟨hatom.operand kind hright, hoperand.operand kind hright⟩
  | @group _ opening closing _ leftParen _ rightParen ih =>
    have hstep : NoStep (closing :: suffix) := noStep_cons (by rw [rightParen]; rfl) suffix
    have hop : UnaryOp.ofKind? opening.kind = none := by
      rw [leftParen]
      rfl
    rw [List.cons_append, List.append_assoc, List.singleton_append, outcome_operand_of_none hop]
    have hgroup := group_endsBefore leftParen rightParen (ih hstep).2
    exact ⟨hgroup, hgroup⟩

theorem rest_eq_nil_of_spelled {e e' : Expr} {ts rest : List Token} (h : e'.Spelled ts)
    (hread : outcome (expression ts) = .ok (e, rest)) : rest = [] := by
  have hstep : NoStep [] := by
    intro token htoken
    cases htoken
  obtain ⟨_, hends⟩ := spelled_endsBefore h hstep
  rw [List.append_nil] at hends
  rw [outcome_expression] at hread
  obtain ⟨e'', he''⟩ := hends id _ hread
  rw [outcome_chain_nil] at he''
  cases he''
  rfl

end Through

section Lists

variable {ts rest : List Token} {e : Expr}

theorem expression_taken (h : outcome (expression ts) = .ok (e, rest)) :
    ∃ used, ts = used ++ rest ∧ e.Spelled used ∧ e.Canonical ∧
      ∀ rest', rest'.head? = rest.head? →
        outcome (expression (used ++ rest')) = .ok (e, rest') := by
  obtain ⟨used, hts, hspelled, hcanonical⟩ := expression_sound h
  obtain ⟨used', hts', hlocal⟩ := (expression_local ts).of_ok h
  have hused : used' = used := List.append_cancel_right (hts'.symm.trans hts)
  subst hused
  exact ⟨used', hts, hspelled, hcanonical, hlocal⟩

/-- A longer spelling would be read up to both ends. -/
theorem not_spelled_longer {used more : List Token}
    (hlocal : ∀ rest', rest'.head? = rest.head? →
      outcome (expression (used ++ rest')) = .ok (e, rest'))
    (hne : more ≠ []) (hmore : more <+: rest) (e' : Expr) : ¬ e'.Spelled (used ++ more) := by
  intro hspelled
  have hhead : more.head? = rest.head? := by
    obtain ⟨back, rfl⟩ := hmore
    cases more with
    | nil => exact absurd rfl hne
    | cons token more => rfl
  exact hne (rest_eq_nil_of_spelled hspelled (hlocal more hhead))

end Lists

section Runs

variable {tokens others : List Token} {start stop : Nat}

theorem drop_eq_extract_append (tokens : List Token) (h : start ≤ stop) :
    tokens.drop start = tokens.extract start stop ++ tokens.drop stop := by
  have hstop : tokens.drop stop = (tokens.drop start).drop (stop - start) := by
    rw [List.drop_drop, Nat.add_sub_cancel' h]
  rw [hstop, List.take_append_drop]

theorem length_extract (h : stop ≤ tokens.length) :
    (tokens.extract start stop).length = stop - start := by
  rw [List.length_take, List.length_drop]
  omega

theorem extract_of_drop {used left : List Token} (h : tokens.drop start = used ++ left) :
    tokens.extract start (start + used.length) = used := by
  rw [List.extract_eq_take_drop, Nat.add_sub_cancel_left, h, List.take_left]

section Agree

variable (h : others.take (stop + 1) = tokens.take (stop + 1))
include h

theorem extract_congr : others.extract start stop = tokens.extract start stop := by
  have htake := congrArg (List.take stop) h
  rw [List.take_take, List.take_take, Nat.min_eq_left (Nat.le_succ stop)] at htake
  rw [List.extract_eq_take_drop, List.extract_eq_take_drop, ← List.drop_take, ← List.drop_take,
    htake]

theorem head?_drop_congr : (others.drop stop).head? = (tokens.drop stop).head? := by
  have hget := congrArg (fun ts : List Token => ts[stop]?) h
  rw [List.head?_drop, List.head?_drop]
  simpa only [List.getElem?_take, Nat.lt_succ_self, if_true] using hget

end Agree

end Runs

namespace Reader

def after : Nat → Reader → Reader
  | 0, r => r
  | n + 1, r => after n r.expression.2

/-- From `start` on, the tokens are read as `e` up to `stop`: they spell it with its precedences, no
longer run of tokens spells any expression, and tokens behind the one at `stop` do not matter. -/
structure ReadsLongest (tokens : List Token) (start stop : Nat) (e : Expr) : Prop where
  stop_le : stop ≤ tokens.length
  not_end : ∀ token ∈ tokens.extract start stop, token.kind ≠ .endOfInput
  spelled : e.Spelled (tokens.extract start stop)
  canonical : e.Canonical
  longest : ∀ later, stop < later → later ≤ tokens.length → ∀ e' : Expr,
    ¬ e'.Spelled (tokens.extract start later)
  ahead : ∀ others, others.take (stop + 1) = tokens.take (stop + 1) →
    (Reader.mk others start).expression = (.ok e, ⟨others, stop⟩)

variable {r r' : Reader} {e : Expr}

theorem expression_tokens (r : Reader) : r.expression.2.tokens = r.tokens := by
  unfold expression reading
  split <;> rfl

theorem after_tokens (r : Reader) (n : Nat) : (r.after n).tokens = r.tokens := by
  induction n generalizing r with
  | zero => rfl
  | succ n ih => exact (ih r.expression.2).trans r.expression_tokens

theorem outcome_of_expression (h : r.expression = (.ok e, r')) :
    ∃ left, outcome (Parser.expression r.rest) = .ok (e, left) ∧ r' = r.leaving left := by
  unfold expression reading at h
  split at h
  · rename_i e' left hok
    cases h
    exact ⟨left.val, by rw [hok]; rfl, rfl⟩
  · cases h

theorem leaving_of_rest {used left : List Token} (h : r.rest = used ++ left) :
    r.leaving left = ⟨r.tokens, r.cursor + used.length⟩ := by
  rw [leaving, h, List.length_append, Nat.add_sub_cancel]

theorem expression_of_outcome {used left : List Token} (hrest : r.rest = used ++ left)
    (h : outcome (Parser.expression (used ++ left)) = .ok (e, left)) :
    r.expression = (.ok e, ⟨r.tokens, r.cursor + used.length⟩) := by
  rw [← hrest] at h
  obtain ⟨⟨e', left'⟩, hok, heq⟩ := map_eq_ok_iff.mp h
  cases heq
  rw [← leaving_of_rest hrest, expression, reading, hok]

/-- What is spelled in front of a token that does not continue it is read. -/
theorem expression_of_spelled {stop : Nat} (hstop : stop ≤ r.tokens.length)
    (hspelled : e.Spelled (r.tokens.extract r.cursor stop)) (hcanonical : e.Canonical)
    (hends : EndsExpr (r.tokens.drop stop)) : r.expression = (.ok e, ⟨r.tokens, stop⟩) := by
  have hlt : r.cursor < stop := by
    obtain ⟨_, _, hcons, _⟩ := hspelled.head
    have hlength := congrArg List.length hcons
    rw [length_extract hstop, List.length_cons] at hlength
    omega
  have hrest : r.rest = r.tokens.extract r.cursor stop ++ r.tokens.drop stop :=
    drop_eq_extract_append r.tokens (Nat.le_of_lt hlt)
  rw [expression_of_outcome hrest (expression_complete hspelled hcanonical hends),
    length_extract hstop, Nat.add_sub_cancel' (Nat.le_of_lt hlt)]

section Taken

variable {tokens used left : List Token} {start : Nat}
  (hdrop : tokens.drop start = used ++ left)
  (hlocal : ∀ rest', rest'.head? = left.head? →
    outcome (Parser.expression (used ++ rest')) = .ok (e, rest'))
include hdrop hlocal

theorem not_spelled_later {later : Nat} (hlater : start + used.length < later)
    (hle : later ≤ tokens.length) (e' : Expr) : ¬ e'.Spelled (tokens.extract start later) := by
  have hlength : tokens.length - start = used.length + left.length := by
    rw [← List.length_drop, hdrop, List.length_append]
  have hsplit : tokens.extract start later = used ++ left.take (later - start - used.length) := by
    rw [List.extract_eq_take_drop, hdrop, List.take_append, List.take_of_length_le (by omega)]
  have hne : left.take (later - start - used.length) ≠ [] := by
    apply List.ne_nil_of_length_pos
    rw [List.length_take]
    omega
  rw [hsplit]
  exact not_spelled_longer hlocal hne (List.take_prefix _ _) e'

theorem expression_of_agreeing {others : List Token}
    (hothers : others.take (start + used.length + 1) = tokens.take (start + used.length + 1)) :
    (Reader.mk others start).expression = (.ok e, ⟨others, start + used.length⟩) := by
  have hrest : (Reader.mk others start).rest = used ++ others.drop (start + used.length) := by
    rw [rest, drop_eq_extract_append others (Nat.le_add_right _ _), extract_congr hothers,
      extract_of_drop hdrop]
  have hleft : left = tokens.drop (start + used.length) := by
    rw [← List.drop_drop, hdrop, List.drop_left]
  have hhead : (others.drop (start + used.length)).head? = left.head? := by
    rw [head?_drop_congr hothers, ← hleft]
  exact expression_of_outcome hrest (hlocal _ hhead)

end Taken

theorem readsLongest_of_expression (h : r.expression = (.ok e, r')) :
    r'.tokens = r.tokens ∧ ReadsLongest r.tokens r.cursor r'.cursor e := by
  obtain ⟨left, hok, rfl⟩ := outcome_of_expression h
  obtain ⟨used, hrest, hspelled, hcanonical, hlocal⟩ := expression_taken hok
  have hdrop : r.tokens.drop r.cursor = used ++ left := hrest
  have hextract := extract_of_drop hdrop
  have hle : r.cursor + used.length ≤ r.tokens.length := by
    obtain ⟨_, _, hused, _⟩ := hspelled.head
    have hlength := congrArg List.length hdrop
    rw [List.length_drop, List.length_append, hused, List.length_cons] at hlength
    rw [hused, List.length_cons]
    omega
  rw [leaving_of_rest hrest]
  refine ⟨rfl, hle, ?_, ?_, hcanonical, ?_, ?_⟩
  · rw [hextract]
    exact hspelled.not_end
  · rwa [hextract]
  · intro later hlater hlast e'
    exact not_spelled_later hdrop hlocal hlater hlast e'
  · intro others hothers
    exact expression_of_agreeing hdrop hlocal hothers

/-- Every call of a reader, whatever the calls before it came to, takes the longest expression that
begins at the cursor; and where an expression is spelled in front of a token that does not continue
it, the call reads it. -/
theorem expression_takes_longest (r : Reader) (n : Nat) (e : Expr) :
    (∀ r', (r.after n).expression = (.ok e, r') →
      r'.tokens = r.tokens ∧ ReadsLongest r.tokens (r.after n).cursor r'.cursor e) ∧
    ∀ stop ≤ r.tokens.length, e.Spelled (r.tokens.extract (r.after n).cursor stop) →
      e.Canonical → EndsExpr (r.tokens.drop stop) →
      (r.after n).expression = (.ok e, ⟨r.tokens, stop⟩) := by
  rw [← after_tokens r n]
  refine ⟨?_, ?_⟩
  · intro r' h
    exact readsLongest_of_expression h
  · intro stop hstop hspelled hcanonical hends
    exact expression_of_spelled hstop hspelled hcanonical hends

/-- `a - b++ c`. -/
def twoExpressions : List Token :=
  [⟨.identifier, 1, 0, 1, "a"⟩, ⟨.minus, 1, 2, 1, "-"⟩, ⟨.identifier, 1, 4, 1, "b"⟩,
    ⟨.plusPlus, 1, 5, 2, "++"⟩, ⟨.identifier, 1, 8, 1, "c"⟩, ⟨.endOfInput, 1, 9, 0, ""⟩]

/-- The first call takes four tokens, as the step belongs to `b`, and the second goes on behind
them. -/
theorem expression_takes_longest_twice :
    (Reader.mk twoExpressions 0).expression =
      (.ok (.binary .subtract (.name "a") (.step .increment "b")), ⟨twoExpressions, 4⟩) ∧
    ((Reader.mk twoExpressions 0).after 1).expression =
      (.ok (.name "c"), ⟨twoExpressions, 5⟩) ∧
    ReadsLongest twoExpressions 4 5 (.name "c") := by
  have hfirst : (Reader.mk twoExpressions 0).expression =
      (.ok (.binary .subtract (.name "a") (.step .increment "b")), ⟨twoExpressions, 4⟩) := by
    refine (expression_takes_longest ⟨twoExpressions, 0⟩ 0 _).2 4 (by decide) ?_ ?_ ?_
    · exact .binary (@Expr.Spelled.name ⟨.identifier, 1, 0, 1, "a"⟩ rfl) rfl
        (@Expr.Spelled.step _ ⟨.identifier, 1, 4, 1, "b"⟩ ⟨.plusPlus, 1, 5, 2, "++"⟩ rfl rfl)
    · exact ⟨trivial, trivial, trivial, trivial⟩
    · exact endsExpr_of_head rfl rfl _
  have hafter : (Reader.mk twoExpressions 0).after 1 = ⟨twoExpressions, 4⟩ := by
    rw [after, after, hfirst]
  have hsecond : ((Reader.mk twoExpressions 0).after 1).expression =
      (.ok (.name "c"), ⟨twoExpressions, 5⟩) := by
    refine (expression_takes_longest ⟨twoExpressions, 0⟩ 1 _).2 5 (by decide) ?_ trivial ?_
    · rw [hafter]
      exact @Expr.Spelled.name ⟨.identifier, 1, 8, 1, "c"⟩ rfl
    · exact endsExpr_of_head rfl rfl _
  have hlongest := ((expression_takes_longest ⟨twoExpressions, 0⟩ 1 _).1 _ hsecond).2
  rw [hafter] at hlongest
  exact ⟨hfirst, hsecond, hlongest⟩

end Reader

end MiniC.Parser

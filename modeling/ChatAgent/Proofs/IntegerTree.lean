import Mathlib.Data.Rat.Floor
import ChatAgent.Proofs.Expression
import ChatAgent.Proofs.Spelling

/-!
# Exact integers

An expression of integers has its exact value, or the fault of the first operation, from left to
right, that has no value of 64 bits (`IntegerTree.evaluate_of_spells`). It is written with
parentheses only where the ranks of its operators need them.
-/

namespace ChatAgent.Calculator

/-! ## Parts inside parts -/

/-- Which parts stand for which: a part of a higher rank is one of each lower rank. -/
def Part.rank : Part → Nat
  | expression => 0
  | term => 1
  | operand => 2
  | power => 3
  | primary => 4

/-- Where a part `q` has to stand, parentheses are put around a part that is none. -/
def Part.enclose (own q : Part) (ts : List Token) : List Token :=
  if q.rank ≤ own.rank then ts else .openParen :: ts ++ [.closeParen]

/-- A power or a primary is an operand, or more than one, only inside an operand. -/
def Part.lift (own q : Part) : Nat := if q.rank ≤ 2 ∧ 2 < own.rank then 1 else 0

/-- How deep operands nest in a part where a part `q` has to stand, if they nest `n` deep in it. -/
def Part.nest (own q : Part) (n : Nat) : Nat :=
  if q.rank ≤ own.rank then n + own.lift q else n + own.lift expression + lift primary q

namespace Derives

theorem mono {q : Part} {d d' : Nat} {ts : List Token} {a : Tree} (h : Derives q d ts a)
    (hd : d ≤ d') : Derives q d' ts a := by
  induction h generalizing d' with
  | expression _ ranks _ ih ihrest => exact .expression (ih hd) ranks fun l hl => ihrest l hl hd
  | term _ ranks _ ih ihrest => exact .term (ih hd) ranks fun l hl => ihrest l hl hd
  | positive _ ih =>
      obtain ⟨d', rfl⟩ := Nat.exists_eq_add_of_le' (Nat.le_trans (Nat.le_add_left 1 _) hd)
      exact .positive (ih (Nat.le_of_succ_le_succ hd))
  | negative _ ih =>
      obtain ⟨d', rfl⟩ := Nat.exists_eq_add_of_le' (Nat.le_trans (Nat.le_add_left 1 _) hd)
      exact .negative (ih (Nat.le_of_succ_le_succ hd))
  | operand _ ih =>
      obtain ⟨d', rfl⟩ := Nat.exists_eq_add_of_le' (Nat.le_trans (Nat.le_add_left 1 _) hd)
      exact .operand (ih (Nat.le_of_succ_le_succ hd))
  | power _ ih => exact .power (ih hd)
  | raised _ _ ih ihexponent => exact .raised (ih hd) (ihexponent hd)
  | number => exact .number
  | name => exact .name
  | call _ ih => exact .call fun a ha => ih a ha hd
  | group _ ih => exact .group (ih hd)

variable {own q : Part} {d : Nat} {ts us : List Token} {a b : Tree}

theorem inTerm (h : Derives .operand d ts a) : Derives .term d ts a := by
  simpa [Tree.grow] using @Derives.term d ts a [] h (by simp) (by simp)

theorem inExpression (h : Derives .term d ts a) : Derives .expression d ts a := by
  simpa [Tree.grow] using @Derives.expression d ts a [] h (by simp) (by simp)

theorem widen (h : Derives own d ts a) (hq : q.rank ≤ own.rank) :
    Derives q (d + own.lift q) ts a := by
  have toPower (hr : 3 ≤ own.rank) : Derives .power d ts a := by
    cases own with
    | power => exact h
    | primary => exact .power h
    | _ => exact absurd hr (by decide)
  have toOperand (hr : 2 ≤ own.rank) : Derives .operand (d + own.lift .operand) ts a := by
    cases own with
    | operand => exact h
    | power | primary => exact .operand (toPower (by decide))
    | _ => exact absurd hr (by decide)
  have toTerm (hr : 1 ≤ own.rank) : Derives .term (d + own.lift .term) ts a := by
    cases own with
    | term => exact h
    | expression => exact absurd hr (by decide)
    | _ => exact (toOperand (by decide)).inTerm
  cases q with
  | expression =>
      cases own with
      | expression => exact h
      | _ => exact (toTerm (by decide)).inExpression
  | term => exact toTerm hq
  | operand => exact toOperand hq
  | power => exact toPower hq
  | primary =>
      cases own with
      | primary => exact h
      | _ => exact absurd hq (by decide)

theorem enclose (h : Derives own d ts a) (q : Part) :
    Derives q (own.nest q d) (own.enclose q ts) a := by
  unfold Part.nest Part.enclose
  split
  · rename_i hq
    exact h.widen hq
  · have hinside : Derives .expression (d + own.lift .expression) ts a := h.widen (Nat.zero_le _)
    exact (Derives.group hinside).widen (by cases q <;> decide)

/-- One more link behind a chain of terms. -/
theorem addLink {p : Operation} (h : Derives .expression d ts a)
    (hp : p ∈ Operation.additive) (hb : Derives .term d us b) :
    Derives .expression d (ts ++ p.token :: us) (.operation p a b) := by
  cases h with
  | @expression _ ts a links first ranks rest =>
      have hlast := @Derives.expression d ts a (links ++ [⟨p, us, b⟩]) first
        (by simpa [or_imp, forall_and] using ⟨ranks, hp⟩)
        (by simpa [or_imp, forall_and] using ⟨rest, hb⟩)
      simpa [Tree.grow, Link.text] using hlast

theorem mulLink {p : Operation} (h : Derives .term d ts a)
    (hp : p ∈ Operation.multiplicative) (hb : Derives .operand d us b) :
    Derives .term d (ts ++ p.token :: us) (.operation p a b) := by
  cases h with
  | @term _ ts a links first ranks rest =>
      have hlast := @Derives.term d ts a (links ++ [⟨p, us, b⟩]) first
        (by simpa [or_imp, forall_and] using ⟨ranks, hp⟩)
        (by simpa [or_imp, forall_and] using ⟨rest, hb⟩)
      simpa [Tree.grow, Link.text] using hlast

end Derives

/-! ## Expressions of integers -/

/-- The operations that make integers out of integers. -/
inductive IntegerOperation where
  | add | sub | mul | floorDivide | modulo | power
  deriving DecidableEq, Repr

namespace IntegerOperation

def toOperation : IntegerOperation → Operation
  | add => .add
  | sub => .sub
  | mul => .mul
  | floorDivide => .floorDivide
  | modulo => .modulo
  | power => .power

/-- The part that an operation makes up, and the parts that have to stand to its left and to its
right. -/
def part : IntegerOperation → Part
  | add | sub => .expression
  | mul | floorDivide | modulo => .term
  | power => .power

def left : IntegerOperation → Part
  | add | sub => .expression
  | mul | floorDivide | modulo => .term
  | power => .primary

def right : IntegerOperation → Part
  | add | sub => .term
  | mul | floorDivide | modulo | power => .operand

/-- The exact result, where there is one. -/
def exact : IntegerOperation → Int → Int → Int
  | add, v, w => v + w
  | sub, v, w => v - w
  | mul, v, w => v * w
  | floorDivide, v, w => ⌊(v / w : ℚ)⌋
  | modulo, v, w => v - w * ⌊(v / w : ℚ)⌋
  | power, v, w => v ^ w.toNat

end IntegerOperation

/-- An expression of integers. -/
inductive IntegerTree where
  | literal (n : Fin (2 ^ 63))
  | negative (a : IntegerTree)
  | positive (a : IntegerTree)
  | operation (p : IntegerOperation) (a b : IntegerTree)
  deriving DecidableEq, Repr

theorem Part.apart_enclose (own q : Part) {ts : List Token} (h : Token.Apart ts) :
    Token.Apart (own.enclose q ts) := by
  unfold Part.enclose
  split
  · exact h
  · exact h.enclosed

theorem Part.forall_mem_enclose {P : Token → Prop} (own q : Part) {ts : List Token}
    (h : ∀ t ∈ ts, P t) (hopen : P .openParen) (hclose : P .closeParen) :
    ∀ t ∈ own.enclose q ts, P t := by
  unfold Part.enclose
  split
  · exact h
  · simpa [or_imp, forall_and] using ⟨hopen, h, hclose⟩

namespace IntegerTree

def toTree : IntegerTree → Tree
  | literal n => .number (.int n.val)
  | negative a => .negative a.toTree
  | positive a => .positive a.toTree
  | operation p a b => .operation p.toOperation a.toTree b.toTree

/-- The part that an expression makes up as it stands. -/
def part : IntegerTree → Part
  | literal _ => .primary
  | negative _ | positive _ => .operand
  | operation p _ _ => p.part

/-- The tokens of an expression, with parentheses only around parts that would not stand where they
do. -/
def tokens : IntegerTree → List Token
  | literal n => [.number (.int n.val)]
  | negative a => .minus :: a.part.enclose .operand a.tokens
  | positive a => .plus :: a.part.enclose .operand a.tokens
  | operation p a b =>
    a.part.enclose p.left a.tokens ++ p.toOperation.token :: b.part.enclose p.right b.tokens

/-- The text of an expression, without white space. -/
def text (t : IntegerTree) : String := String.ofList (t.tokens.flatMap Token.chars)

/-- How deep operands nest in an expression as it stands. -/
def nesting : IntegerTree → Nat
  | literal _ => 0
  | negative a | positive a => a.part.nest .operand a.nesting + 1
  | operation p a b => max (a.part.nest p.left a.nesting) (b.part.nest p.right b.nesting)

/-- How deep operands nest in an expression. -/
def depth (t : IntegerTree) : Nat := t.nesting + t.part.lift .expression

/-! ### What is read -/

theorem derives_part (t : IntegerTree) : Derives t.part t.nesting t.tokens t.toTree := by
  induction t with
  | literal n => exact .number
  | negative a ih => exact .negative (ih.enclose .operand)
  | positive a ih => exact .positive (ih.enclose .operand)
  | operation p a b iha ihb =>
      have hleft := (iha.enclose p.left).mono (Nat.le_max_left _ (b.part.nest p.right b.nesting))
      have hright := (ihb.enclose p.right).mono (Nat.le_max_right (a.part.nest p.left a.nesting) _)
      cases p with
      | add | sub => exact hleft.addLink (by decide) hright
      | mul | floorDivide | modulo => exact hleft.mulLink (by decide) hright
      | power => exact .raised hleft hright

theorem derives (t : IntegerTree) : Derives .expression t.depth t.tokens t.toTree :=
  t.derives_part.widen (Nat.zero_le _)

theorem apart_tokens (t : IntegerTree) : Token.Apart t.tokens := by
  induction t with
  | literal n => exact .number _
  | negative a ih => exact (a.part.apart_enclose .operand ih).behind (.inr (.inl rfl))
  | positive a ih => exact (a.part.apart_enclose .operand ih).behind (.inl rfl)
  | operation p a b iha ihb =>
      exact (a.part.apart_enclose p.left iha).joined (b.part.apart_enclose p.right ihb)
        (by cases p <;> rfl)

theorem plain_tokens (t : IntegerTree) : ∀ u ∈ t.tokens, u.Plain := by
  induction t with
  | literal n =>
      have hn := n.isLt
      simp only [tokens, List.mem_singleton, forall_eq, Token.Plain, int64Max]
      omega
  | negative a ih | positive a ih =>
      exact List.forall_mem_cons.mpr ⟨rfl, a.part.forall_mem_enclose .operand ih rfl rfl⟩
  | operation p a b iha ihb =>
      refine List.forall_mem_append.mpr ⟨a.part.forall_mem_enclose p.left iha rfl rfl, ?_⟩
      refine List.forall_mem_cons.mpr ⟨?_, b.part.forall_mem_enclose p.right ihb rfl rfl⟩
      cases p <;> rfl

theorem spells_text (t : IntegerTree) : Token.Spells t.tokens t.text.toList := by
  rw [text, String.toList_ofList]
  exact Token.spells_chars t.plain_tokens

end IntegerTree

/-! ## Exact values -/

/-- The carrying out of one operation. -/
inductive IntegerStep where
  | negation (v : Int)
  | operation (p : IntegerOperation) (v w : Int)

namespace IntegerStep

/-- Why an operation has no result of 64 bits, if it has none. -/
def fault? : IntegerStep → Option Fault
  | negation v => if FitsInt64 (-v) then none else some .overflow
  | operation p v w =>
    if (p = .floorDivide ∨ p = .modulo) ∧ w = 0 then some .divisionByZero
    else if ¬ FitsInt64 (p.exact v w) ∨ (p = .power ∧ 2 ^ 32 - 1 < w) ∨
        (p = .modulo ∧ v = -2 ^ 63 ∧ w = -1) then some .overflow
    else none

/-- A power has an exponent that is not negative. -/
def Natural : IntegerStep → Prop
  | operation .power _ w => 0 ≤ w
  | _ => True

/-- The powers up to the first fault have exponents that are not negative. -/
def AllNatural : List IntegerStep → Prop
  | [] => True
  | o :: os => o.Natural ∧ (o.fault? = none → AllNatural os)

theorem allNatural_of_forall {os : List IntegerStep} (h : ∀ o ∈ os, o.Natural) : AllNatural os := by
  induction os with
  | nil => trivial
  | cons o os ih =>
      exact ⟨h o List.mem_cons_self, fun _ => ih fun o' ho => h o' (List.mem_cons_of_mem _ ho)⟩

theorem allNatural_append {os os' : List IntegerStep} :
    AllNatural (os ++ os') ↔ AllNatural os ∧ (os.findSome? fault? = none → AllNatural os') := by
  induction os with
  | nil => simp [AllNatural]
  | cons o os ih =>
      cases ho : o.fault? <;> simp [AllNatural, ho, ih, and_assoc]

end IntegerStep

theorem fdiv_eq_floor (v w : Int) : Int.fdiv v w = ⌊(v / w : ℚ)⌋ := by
  have hnatural (v : Int) (n : Nat) : Int.fdiv v n = ⌊(v / (n : Int) : ℚ)⌋ := by
    rw [Int.fdiv_eq_ediv_of_nonneg v (Int.natCast_nonneg n)]
    exact (Rat.floor_intCast_div_natCast v n).symm
  obtain ⟨n, rfl | rfl⟩ := w.eq_nat_or_neg
  · exact hnatural v n
  · have hneg := hnatural (-v) n
    rw [← Int.neg_fdiv_neg, Int.neg_neg, hneg]
    push_cast
    rw [neg_div, div_neg]

/-- From the exponent 64 on the powers of other numbers than 0, 1 and -1 do not fit. -/
theorem not_fitsInt64_pow {b : Int} {e : Nat} (hb : 2 ≤ b.natAbs) (he : 64 ≤ e) :
    ¬ FitsInt64 (b ^ e) := by
  have hpow : 2 ^ 64 ≤ (b ^ e).natAbs := by
    rw [Int.natAbs_pow]
    exact Nat.le_trans (Nat.pow_le_pow_right (by decide) he) (Nat.pow_le_pow_left hb e)
  unfold FitsInt64 int64Min int64Max
  omega

theorem integerPower_eq (b : Int) (e : Nat) : integerPower b e = exact (b ^ e) := by
  unfold integerPower
  split
  · rfl
  · rename_i he
    split_ifs with h0 h1 hneg heven
    · rw [h0, zero_pow (by omega)]
      rfl
    · rw [h1, one_pow]
      rfl
    · rw [hneg, Even.neg_one_pow (Nat.even_iff.mpr heven)]
      rfl
    · rw [hneg, Odd.neg_one_pow (Nat.odd_iff.mpr (by omega))]
      rfl
    · rw [exact, if_neg (not_fitsInt64_pow (by omega) (by omega))]

theorem exact_eq (n : Int) :
    exact n = match if ¬ FitsInt64 n then some Fault.overflow else none with
      | some e => .error e
      | none => .ok (.int n) := by
  rw [exact]
  split <;> simp [*]

theorem neg_int (v : Int) :
    neg (.int v) = match (IntegerStep.negation v).fault? with
      | some e => .error e
      | none => .ok (.int (-v)) := by
  rw [neg, exact, IntegerStep.fault?]
  split <;> rfl

theorem apply_int (p : IntegerOperation) (v w : Int)
    (h : (IntegerStep.operation p v w).Natural) :
    p.toOperation.apply (.int v) (.int w) =
      match (IntegerStep.operation p v w).fault? with
      | some e => .error e
      | none => .ok (.int (p.exact v w)) := by
  cases p with
  | add | sub | mul =>
      simp only [IntegerStep.fault?, reduceCtorEq, false_and, or_false, if_false]
      exact exact_eq _
  | floorDivide =>
      rw [IntegerOperation.toOperation, Operation.apply, floorDivide, fdiv_eq_floor]
      by_cases hw : w = 0
      · simp [IntegerStep.fault?, isZero, hw]
      · simp [IntegerStep.fault?, isZero, hw, exact_eq, IntegerOperation.exact]
  | modulo =>
      rw [IntegerOperation.toOperation, Operation.apply, modulo, Int.fmod_def, fdiv_eq_floor]
      by_cases hw : w = 0
      · simp [IntegerStep.fault?, isZero, hw]
      · by_cases hleast : v = -9223372036854775808 ∧ w = -1
        · simp [IntegerStep.fault?, isZero, int64Min, hleast]
        · simp [IntegerStep.fault?, isZero, int64Min, hw, hleast, exact_eq,
            IntegerOperation.exact]
  | power =>
      have hw : 0 ≤ w := h
      rw [IntegerOperation.toOperation, Operation.apply, power, if_pos hw, integerPower_eq,
        exponentMax]
      by_cases hmax : w ≤ 4294967295
      · simp [IntegerStep.fault?, hmax, Int.not_lt.mpr hmax, exact_eq, IntegerOperation.exact]
      · simp [IntegerStep.fault?, hmax, Int.not_le.mp hmax]

namespace IntegerTree

/-- The exact value of an expression. Where a divisor is zero it does not matter. -/
def value : IntegerTree → Int
  | literal n => n.val
  | negative a => -a.value
  | positive a => a.value
  | operation p a b => p.exact a.value b.value

/-- The operations of an expression as they are carried out, from left to right. -/
def steps : IntegerTree → List IntegerStep
  | literal _ => []
  | negative a => a.steps ++ [.negation a.value]
  | positive a => a.steps
  | operation p a b => a.steps ++ (b.steps ++ [.operation p a.value b.value])

/-- The fault of the first operation that has one. -/
def firstFault? (t : IntegerTree) : Option Fault := t.steps.findSome? IntegerStep.fault?

/-- Up to the first fault the value of a tree is computed exactly. -/
theorem value_toTree (t : IntegerTree) (h : IntegerStep.AllNatural t.steps) :
    t.toTree.value = match t.firstFault? with
      | some e => .error e
      | none => .ok (.int t.value) := by
  unfold firstFault?
  induction t with
  | literal n => rfl
  | negative a ih =>
      obtain ⟨ha, -⟩ := IntegerStep.allNatural_append.mp h
      rw [toTree, Tree.value, ih ha, steps, List.findSome?_append]
      cases a.steps.findSome? IntegerStep.fault? with
      | some e => rfl
      | none =>
          rw [Option.none_or, List.findSome?_singleton]
          exact neg_int a.value
  | positive a ih => exact ih h
  | operation p a b iha ihb =>
      obtain ⟨ha, hb⟩ := IntegerStep.allNatural_append.mp h
      -- the right side is evaluated only if the left one has no fault
      rw [toTree, Tree.value, iha ha, steps, List.findSome?_append]
      cases hfa : a.steps.findSome? IntegerStep.fault? with
      | some e => rfl
      | none =>
          obtain ⟨hb, hstep⟩ := IntegerStep.allNatural_append.mp (hb hfa)
          rw [ihb hb, List.findSome?_append]
          cases hfb : b.steps.findSome? IntegerStep.fault? with
          | some e => rfl
          | none =>
              rw [Option.none_or, Option.none_or, List.findSome?_singleton]
              exact apply_int p a.value b.value (hstep hfb).1

/-- A text that spells an expression has the value of its tree. -/
theorem evaluate_spelled (t : IntegerTree) {s : String} (hs : Token.Spells t.tokens s.toList)
    (hdepth : t.depth ≤ 100) : evaluate s = t.toTree.value := by
  rw [evaluate, Token.ofText_spells hs t.apart_tokens, ok_bind,
    evaluateTokens_of_derives (t.derives.mono hdepth)]

/-- Any text that spells an expression of integers, nested no deeper than operands may, has its
exact value, or the fault of the first operation that has one. -/
theorem evaluate_of_spells (t : IntegerTree) {s : String} (hs : Token.Spells t.tokens s.toList)
    (hdepth : t.depth ≤ 100) (hpowers : IntegerStep.AllNatural t.steps) :
    evaluate s = match t.firstFault? with
      | some e => .error e
      | none => .ok (.int t.value) :=
  (t.evaluate_spelled hs hdepth).trans (t.value_toTree hpowers)

theorem evaluate_of_spells_powers :
    let t : IntegerTree := .operation .add
      (.operation .floorDivide (.negative (.literal 7)) (.literal 2))
      (.operation .power (.literal 2) (.operation .power (.literal 3) (.literal 2)))
    Token.Spells t.tokens "-7 // 2 + 2**3**2".toList ∧ t.depth ≤ 100 ∧
      IntegerStep.AllNatural t.steps ∧ evaluate "-7 // 2 + 2**3**2" = .ok (.int 508) := by
  intro t
  have hspells : Token.Spells t.tokens "-7 // 2 + 2**3**2".toList :=
    .symbol (s := ['-']) rfl <| .natural (n := 7) (by decide) <| .blank rfl <|
    .symbol (s := ['/', '/']) rfl <| .blank rfl <| .natural (n := 2) (by decide) <| .blank rfl <|
    .symbol (s := ['+']) rfl <| .blank rfl <| .natural (n := 2) (by decide) <|
    .symbol (s := ['*', '*']) rfl <| .natural (n := 3) (by decide) <|
    .symbol (s := ['*', '*']) rfl <| .natural (n := 2) (by decide) .nil
  have hnatural : IntegerStep.AllNatural t.steps := by
    apply IntegerStep.allNatural_of_forall
    simp [t, steps, value, IntegerOperation.exact, IntegerStep.Natural]
  have hfault : t.firstFault? = none := by decide +kernel
  have hvalue : t.value = 508 := by decide +kernel
  refine ⟨hspells, by decide, hnatural, ?_⟩
  rw [t.evaluate_of_spells hspells (by decide) hnatural, hfault, hvalue]

/-- The text that is written for an expression has its exact value too, or that fault. -/
theorem evaluate_text (t : IntegerTree) (hdepth : t.depth ≤ 100)
    (hpowers : IntegerStep.AllNatural t.steps) :
    evaluate t.text = match t.firstFault? with
      | some e => .error e
      | none => .ok (.int t.value) :=
  (t.evaluate_spelled t.spells_text hdepth).trans (t.value_toTree hpowers)

end IntegerTree

end ChatAgent.Calculator

import ChatAgent.Proofs.ShortestDigits
import ChatAgent.Proofs.Spelling

/-!
# Floats as texts

The text of a finite float is a numeral (`Layout.chars_numeral`), behind a minus or not. It says
just what the digits of the float do (`Layout.rational_numeral`), and is read as one token, which is
the float that was laid out (`Calculator.Token.ofText_float`).
-/

namespace ChatAgent

namespace Calculator.Token

namespace Numeral

variable {n : Numeral} {ds : List Char} {e : ℤ}

/-! ## What digits say -/

theorem natOf_toDigits (n : ℕ) : natOf (Nat.toDigits 10 n) = n := by
  rw [natOf_eq, Nat.ofDigitChars_ten_toDigits]

theorem isDigit_of_mem_zeros {k : ℕ} {c : Char} (h : c ∈ List.replicate k '0') : c.isDigit := by
  rw [List.eq_of_mem_replicate h]
  rfl

theorem natOf_append_zeros (ds : List Char) (k : ℕ) :
    natOf (ds ++ List.replicate k '0') = natOf ds * 10 ^ k := by
  rw [natOf_eq, natOf_eq, Nat.ofDigitChars_append, Nat.ofDigitChars_replicate_zero, mul_comm]

theorem natOf_zeros_append (k : ℕ) (ds : List Char) :
    natOf (List.replicate k '0' ++ ds) = natOf ds := by
  rw [natOf_eq, natOf_eq, Nat.ofDigitChars_append, Nat.ofDigitChars_replicate_zero, mul_zero]

/-- The rational number that a numeral writes. -/
def rational (n : Numeral) : ℚ :=
  natOf (n.whole ++ n.fraction.getD []) * 10 ^ (n.power - (n.fraction.getD []).length)

theorem float_eq (n : Numeral) : n.float =
    Float.ofScientific (natOf (n.whole ++ n.fraction.getD []))
      (n.power - (n.fraction.getD []).length < 0)
      (n.power - (n.fraction.getD []).length).natAbs := rfl

/-! ## Two forms -/

/-- Digits in their places, on either side of a point. -/
structure Positional (n : Numeral) : Prop where
  whole : n.whole ≠ []
  fraction : ∃ ds, n.fraction = some ds ∧ ds ≠ []
  exponent : n.exponent = none

/-- One digit, behind a point the others if there are any, and an exponent that has a sign and at
least two digits. -/
structure Scientific (n : Numeral) : Prop where
  whole : n.whole.length = 1
  fraction : n.fraction ≠ some []
  exponent : ∃ sign ds, n.exponent = some ('e', [sign], ds) ∧ (sign = '+' ∨ sign = '-') ∧
    2 ≤ ds.length

theorem Positional.not_scientific (h : n.Positional) : ¬ n.Scientific := by
  intro h'
  obtain ⟨sign, ds, hexponent, -⟩ := h'.exponent
  cases h.exponent.symm.trans hexponent

/-- With a digit behind every point, what has a point or an exponent is a float. -/
theorem value_eq_float (hfraction : n.fraction ≠ some [])
    (h : n.fraction ≠ none ∨ n.exponent ≠ none) : n.value = .ok (.float n.float) := by
  unfold value
  split
  · rename_i hnone hnone'
    exact absurd h (by simp [hnone, hnone'])
  · rename_i hempty _
    exact absurd hempty hfraction
  · rename_i hempty _
    exact absurd hempty hfraction
  · rfl

/-- Digits in their places. -/
def positional (ds : List Char) (e : ℤ) : Numeral :=
  if e < 0 then ⟨['0'], some (List.replicate ((-e).toNat - 1) '0' ++ ds), none⟩
  else if ds.length ≤ e.toNat + 1 then
    ⟨ds ++ List.replicate (e.toNat + 1 - ds.length) '0', some ['0'], none⟩
  else ⟨ds.take (e.toNat + 1), some (ds.drop (e.toNat + 1)), none⟩

theorem chars_positional (ds : List Char) (e : ℤ) :
    (positional ds e).chars = Layout.positional ds e := by
  unfold positional Layout.positional
  split
  · simp [chars]
  · dsimp only
    split <;> simp [chars]

theorem rational_positional (ds : List Char) (e : ℤ) :
    (positional ds e).rational = natOf ds * 10 ^ (e + 1 - ds.length) := by
  unfold positional
  split
  · rename_i hneg
    have hdigits : natOf (['0'] ++ (List.replicate ((-e).toNat - 1) '0' ++ ds)) = natOf ds := by
      have hzeros : ['0'] ++ (List.replicate ((-e).toNat - 1) '0' ++ ds) =
          List.replicate ((-e).toNat - 1 + 1) '0' ++ ds := by
        rw [List.replicate_succ]
        rfl
      rw [hzeros, natOf_zeros_append]
    simp only [rational, Option.getD_some, power, hdigits, List.length_append,
      List.length_replicate]
    congr 2
    omega
  split
  · rename_i hnonneg hle
    have hzeros : ds ++ List.replicate (e.toNat + 1 - ds.length) '0' ++ ['0'] =
        ds ++ List.replicate (e.toNat + 1 - ds.length + 1) '0' := by
      rw [List.replicate_succ', List.append_assoc]
    simp only [rational, Option.getD_some, power, hzeros, natOf_append_zeros]
    push_cast
    rw [mul_assoc, ← zpow_natCast, ← zpow_add₀ (by norm_num)]
    congr 2
    simp only [List.length_singleton]
    omega
  · rename_i hnonneg hlong
    simp only [rational, Option.getD_some, power, List.take_append_drop, List.length_drop]
    congr 2
    omega

theorem positional_of (hne : ds ≠ []) (e : ℤ) : (positional ds e).Positional := by
  unfold positional
  have hlength := List.length_pos_iff.mpr hne
  split
  · exact ⟨by simp, ⟨_, rfl, by simp [hne]⟩, rfl⟩
  split
  · exact ⟨by simp [hne], ⟨_, rfl, by simp⟩, rfl⟩
  · refine ⟨by simp [hne], ⟨_, rfl, ?_⟩, rfl⟩
    rw [ne_eq, List.drop_eq_nil_iff]
    omega

theorem proper_positional (hds : ∀ c ∈ ds, c.isDigit) (e : ℤ) : (positional ds e).Proper := by
  unfold positional
  split
  · refine ⟨by simp, ?_, nofun⟩
    rintro _ ⟨⟩ c hc
    exact (List.mem_append.mp hc).elim isDigit_of_mem_zeros (hds c)
  split
  · refine ⟨?_, by simp, nofun⟩
    intro c hc
    exact (List.mem_append.mp hc).elim (hds c) isDigit_of_mem_zeros
  · refine ⟨fun c hc => hds c (List.mem_of_mem_take hc), ?_, nofun⟩
    rintro _ ⟨⟩ c hc
    exact hds c (List.mem_of_mem_drop hc)

/-- What stands behind the first digit, if anything does. -/
def fractionOf : List Char → Option (List Char)
  | _ :: d :: ds => some (d :: ds)
  | _ => none

/-- One digit before the point, and an exponent of at least `width` digits. -/
def scientific (width : ℕ) (ds : List Char) (e : ℤ) : Numeral where
  whole := ds.take 1
  fraction := fractionOf ds
  exponent := some ('e', [if e < 0 then '-' else '+'],
    List.replicate (width - (Nat.toDigits 10 e.natAbs).length) '0' ++ Nat.toDigits 10 e.natAbs)

theorem chars_scientific (width : ℕ) (ds : List Char) (e : ℤ) :
    (scientific width ds e).chars = Layout.scientific width ds e := by
  unfold scientific Layout.scientific
  match ds with
  | [] => simp [chars, fractionOf]
  | [_] => simp [chars, fractionOf]
  | _ :: _ :: _ => simp [chars, fractionOf]

theorem take_append_fractionOf (ds : List Char) : ds.take 1 ++ (fractionOf ds).getD [] = ds := by
  match ds with
  | [] => rfl
  | [_] => rfl
  | _ :: _ :: _ => rfl

theorem length_fractionOf (ds : List Char) : ((fractionOf ds).getD []).length = ds.length - 1 := by
  match ds with
  | [] => rfl
  | [_] => rfl
  | _ :: _ :: _ => rfl

theorem power_scientific (width : ℕ) (ds : List Char) (e : ℤ) :
    (scientific width ds e).power = e := by
  unfold scientific power
  split
  · rename_i letter zeros heq
    simp only [Option.some.injEq, Prod.mk.injEq, List.cons.injEq, and_true] at heq
    obtain ⟨-, hsign, rfl⟩ := heq
    have hneg : e < 0 := by
      by_contra hnonneg
      rw [if_neg hnonneg] at hsign
      exact absurd hsign (by decide)
    rw [natOf_zeros_append, natOf_toDigits, Int.negOfNat_eq]
    show -(e.natAbs : ℤ) = e
    omega
  · rename_i letter sign zeros hsign heq
    simp only [Option.some.injEq, Prod.mk.injEq] at heq
    obtain ⟨-, rfl, rfl⟩ := heq
    have hnonneg : ¬ e < 0 := by
      intro hneg
      exact hsign (by rw [if_pos hneg])
    rw [natOf_zeros_append, natOf_toDigits]
    omega
  · rename_i heq
    cases heq

theorem rational_scientific (hne : ds ≠ []) (width : ℕ) (e : ℤ) :
    (scientific width ds e).rational = natOf ds * 10 ^ (e + 1 - ds.length) := by
  have hlength := List.length_pos_iff.mpr hne
  rw [rational, power_scientific]
  simp only [scientific, take_append_fractionOf, length_fractionOf]
  congr 2
  omega

theorem fractionOf_ne (ds : List Char) : fractionOf ds ≠ some [] := by
  unfold fractionOf
  split <;> simp

theorem scientific_of (hne : ds ≠ []) {width : ℕ} (hwidth : 2 ≤ width) (e : ℤ) :
    (scientific width ds e).Scientific where
  whole := by
    have hlength := List.length_pos_iff.mpr hne
    simp only [scientific, List.length_take]
    omega
  fraction := fractionOf_ne ds
  exponent := by
    refine ⟨_, _, rfl, ?_, ?_⟩
    · split
      · exact .inr rfl
      · exact .inl rfl
    · rw [List.length_append, List.length_replicate]
      omega

theorem proper_scientific (hds : ∀ c ∈ ds, c.isDigit) (width : ℕ) (e : ℤ) :
    (scientific width ds e).Proper where
  whole := fun c hc => hds c (List.mem_of_mem_take hc)
  fraction := by
    intro fs hfs c hc
    refine hds c ?_
    rw [← take_append_fractionOf ds]
    have hfs : fractionOf ds = some fs := hfs
    rw [hfs]
    exact List.mem_append_right _ hc
  exponent := by
    intro letter sign es h
    cases h
    refine ⟨.inl rfl, ?_, ?_, ?_⟩
    · split <;> simp
    · simp [Nat.toDigits_ne_nil]
    · intro c hc
      rcases List.mem_append.mp hc with hc | hc
      · exact isDigit_of_mem_zeros hc
      · exact Nat.isDigit_of_mem_toDigits (by decide) (by decide) hc

end Numeral

/-- A numeral is one token. -/
theorem ofText_numeral {n : Numeral} {v : Number} (hn : n.Proper) (hwhole : n.whole ≠ [])
    (hvalue : n.value = .ok v) : ofText (String.ofList n.chars) = .ok [.number v] := by
  rw [ofText_eq_ok, String.toList_ofList, ← List.append_nil n.chars]
  exact ⟨nofun, .token (takes_numeral hn hwhole hvalue nofun) .nil⟩

end Calculator.Token

/-! ## The text of a float -/

/-- The digits with a point behind the first of them, times the power that is the exponent. -/
theorem Decimal.value_eq (d : Decimal) :
    d.value = d.significand * 10 ^ (d.exponent + 1 - d.digits.length) := by
  unfold value exponent
  congr 2
  ring

namespace Layout

open Calculator.Token (Numeral)

/-- The numeral that a positive decimal is laid out as. -/
def numeral (l : Layout) (d : Decimal) : Numeral :=
  if l.least ≤ d.exponent ∧ d.exponent < l.beyond then .positional d.digits d.exponent
  else .scientific l.exponentWidth d.digits d.exponent

variable (l : Layout) (d : Decimal)

theorem chars_numeral : (l.numeral d).chars = l.decimal d := by
  unfold numeral decimal
  split
  · exact Numeral.chars_positional _ _
  · exact Numeral.chars_scientific _ _ _

/-- However it is laid out, the decimal keeps its value. -/
theorem rational_numeral : (l.numeral d).rational = d.value := by
  rw [d.value_eq, ← Numeral.natOf_toDigits d.significand]
  unfold numeral
  split
  · exact Numeral.rational_positional _ _
  · exact Numeral.rational_scientific Nat.toDigits_ne_nil _ _

theorem proper_numeral : (l.numeral d).Proper := by
  have hdigits : ∀ c ∈ d.digits, c.isDigit := fun c hc =>
    Nat.isDigit_of_mem_toDigits (by decide) (by decide) hc
  unfold numeral
  split
  · exact Numeral.proper_positional hdigits _
  · exact Numeral.proper_scientific hdigits _ _

theorem positional_numeral (h : l.least ≤ d.exponent ∧ d.exponent < l.beyond) :
    (l.numeral d).Positional := by
  rw [numeral, if_pos h]
  exact Numeral.positional_of Nat.toDigits_ne_nil _

theorem scientific_numeral (hwidth : 2 ≤ l.exponentWidth)
    (h : ¬ (l.least ≤ d.exponent ∧ d.exponent < l.beyond)) : (l.numeral d).Scientific := by
  rw [numeral, if_neg h]
  exact Numeral.scientific_of Nat.toDigits_ne_nil hwidth _

theorem ofText_decimal :
    Calculator.Token.ofText (String.ofList (l.decimal d)) =
      .ok [.number (.float (l.numeral d).float)] := by
  have hne : d.digits ≠ [] := Nat.toDigits_ne_nil
  rw [← chars_numeral]
  refine Calculator.Token.ofText_numeral (l.proper_numeral d) ?_ (Numeral.value_eq_float ?_ ?_)
  all_goals
    unfold numeral
    split
  · exact (Numeral.positional_of hne _).whole
  · simp [Numeral.scientific, hne]
  · obtain ⟨ds, hds, hds0⟩ := (Numeral.positional_of hne d.exponent).fraction
    simp [hds, hds0]
  · exact Numeral.fractionOf_ne _
  · obtain ⟨ds, hds, -⟩ := (Numeral.positional_of hne d.exponent).fraction
    simp [hds]
  · exact .inr nofun

/-- The numeral of the digits of a float is read as the float. -/
theorem float_numeral {b : Binary} (hb : Canonical b.mantissa b.exponent) (he : b.exponent ≤ 971)
    (hpos : 0 < b.mantissa) :
    (l.numeral (Shortest.digits l.tie b)).float =
      .ofModel (.pack (.finite .positive b.mantissa b.exponent hpos)) := by
  have hholds := Shortest.holds_digits hb hpos l.tie
  rw [← rational_numeral l, Numeral.rational] at hholds
  rw [Numeral.float_eq]
  exact Shortest.ofScientific_of_holds hb hpos he hholds

end Layout

theorem canonical_of_ofFloat? {x : Float} {b : Binary} (hx : Binary.ofFloat? x = some b)
    (hb : b.mantissa ≠ 0) :
    Canonical b.mantissa b.exponent ∧ b.exponent ≤ 971 ∧ x.abs = .ofModel
      (.pack (.finite .positive b.mantissa b.exponent (Nat.pos_of_ne_zero hb))) := by
  have habs : x.abs = .ofModel (.pack x.toModel.unpack.abs) := rfl
  unfold Binary.ofFloat? at hx
  split at hx
  · rename_i m e hpos hunpack
    cases hx
    rw [habs, hunpack]
    exact ⟨(canonical_of_unpack hunpack).1, (canonical_of_unpack hunpack).2, rfl⟩
  · rename_i m e hpos hunpack
    cases hx
    rw [habs, hunpack]
    exact ⟨(canonical_of_unpack hunpack).1, (canonical_of_unpack hunpack).2, rfl⟩
  all_goals
    cases hx
  · exact absurd rfl hb
  · exact absurd rfl hb

namespace Calculator.Token

/-- The text of a float is a numeral, behind a minus if the float is negative. The numeral says just
what the fewest digits that read back say. It has its digits in their places if the first of them
counts at least `10 ^ -4` and less than `10 ^ 16`, and an exponent otherwise. It is read to its end,
as one token, which is the float without its sign. -/
theorem ofText_float {x : Float} {b : Binary} (hx : Binary.ofFloat? x = some b)
    (hb : b.mantissa ≠ 0) :
    ∃ n : Numeral, n.Proper ∧
      (Layout.result.float x).toList = (if b.negative then ['-'] else []) ++ n.chars ∧
      n.rational = (Shortest.digits .up b).value ∧
      (n.Positional ↔
        -4 ≤ (Shortest.digits .up b).exponent ∧ (Shortest.digits .up b).exponent < 16) ∧
      (n.Scientific ↔
        ¬ (-4 ≤ (Shortest.digits .up b).exponent ∧ (Shortest.digits .up b).exponent < 16)) ∧
      Numeral.read n.chars = (n, []) ∧
      ofText (String.ofList n.chars) = .ok [.number (.float x.abs)] := by
  obtain ⟨hcanonical, he, habs⟩ := canonical_of_ofFloat? hx hb
  have hproper := Layout.result.proper_numeral (Shortest.digits .up b)
  have hread := Numeral.read_chars hproper (r := []) nofun
  rw [List.append_nil] at hread
  have hpositional := Layout.result.positional_numeral (Shortest.digits .up b)
  have hscientific := Layout.result.scientific_numeral (Shortest.digits .up b) (by decide)
  refine ⟨Layout.result.numeral (Shortest.digits .up b), hproper, ?_,
    Layout.result.rational_numeral _, ?_, ?_, hread, ?_⟩
  · rw [Layout.float, hx, Layout.chars_numeral]
    dsimp only
    rw [String.toList_ofList, Layout.binary, if_neg hb]
    rfl
  · refine ⟨fun h => ?_, hpositional⟩
    by_contra hout
    exact h.not_scientific (hscientific hout)
  · exact ⟨fun h hin => (hpositional hin).not_scientific h, hscientific⟩
  · rw [Layout.chars_numeral, Layout.ofText_decimal, habs]
    exact congrArg (fun y => Except.ok [Token.number (.float y)])
      (Layout.result.float_numeral hcanonical he (Nat.pos_of_ne_zero hb))

/-- `10 ^ 23` is just between two floats. It stands for the even one, whose interval reaches as far
as that. -/
theorem ofText_float_halfway :
    Binary.ofFloat? (-1e23) = some ⟨true, 5960464477539062, 24⟩ ∧
      ∃ n : Numeral, n.Scientific ∧ (Layout.result.float (-1e23)).toList = '-' :: n.chars ∧
        n.rational = 10 ^ 23 ∧
        ofText (String.ofList n.chars) = .ok [.number (.float (-1e23 : Float).abs)] := by
  have hx : Binary.ofFloat? (-1e23) = some ⟨true, 5960464477539062, 24⟩ := by decide +kernel
  have hdigits : Shortest.digits .up ⟨true, 5960464477539062, 24⟩ = ⟨1, 23⟩ := by decide +kernel
  obtain ⟨n, -, htext, hrational, -, hscientific, -, htoken⟩ := ofText_float hx (by decide)
  rw [hdigits] at hrational hscientific
  refine ⟨hx, n, hscientific.mpr (by decide), htext, ?_, htoken⟩
  rw [hrational, Decimal.value]
  norm_num

end Calculator.Token

end ChatAgent

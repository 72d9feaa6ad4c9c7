import ChatAgent.Calculator.Lexer
import ChatAgent.Proofs.Words

/-!
# Numerals

A numeral takes the front of a text (`Numeral.chars_read`), and what is left does not go on with it
(`Numeral.read_stops`). It is the same numeral in front of any text that does not
(`Numeral.read_of_stops`).
-/

namespace ChatAgent.Calculator.Token

/-- Characters that go on with a number. -/
def inNumber (c : Char) : Prop := c.isDigit ∨ c = '.' ∨ c = 'e' ∨ c = 'E'

namespace Numeral

theorem natOf_eq (ds : List Char) : natOf ds = Nat.ofDigitChars 10 ds 0 := by
  rw [natOf, Nat.ofDigitChars_eq_foldl]
  simp only [Nat.mul_comm]

/-- The numeral is written with digits where it needs them, and has an exponent with digits. -/
structure Proper (n : Numeral) : Prop where
  whole : ∀ c ∈ n.whole, c.isDigit
  fraction : ∀ ds ∈ n.fraction, ∀ c ∈ ds, c.isDigit
  exponent : ∀ letter sign ds, n.exponent = some (letter, sign, ds) →
    (letter = 'e' ∨ letter = 'E') ∧ sign ∈ [[], ['+'], ['-']] ∧ ds ≠ [] ∧ ∀ c ∈ ds, c.isDigit

section Front

variable {p : Char → Bool} {ds r : List Char} (hds : ∀ c ∈ ds, p c) (hr : ∀ c ∈ r.head?, ¬ p c)

include hds hr

theorem takeWhile_front : (ds ++ r).takeWhile p = ds := by
  rw [List.takeWhile_append_of_pos hds]
  cases r with
  | nil => rw [List.takeWhile_nil, List.append_nil]
  | cons c r => rw [List.takeWhile_cons_of_neg (hr c rfl), List.append_nil]

theorem dropWhile_front : (ds ++ r).dropWhile p = r := by
  rw [List.dropWhile_append_of_pos hds]
  cases r with
  | nil => rfl
  | cons c r => exact List.dropWhile_cons_of_neg (hr c rfl)

end Front

theorem head_dropWhile {p : Char → Bool} (cs : List Char) :
    ∀ c ∈ (cs.dropWhile p).head?, ¬ p c := by
  intro c hc
  have h := List.head?_dropWhile_not p cs
  rw [Option.mem_def.mp hc] at h
  exact Bool.eq_false_iff.mp h

theorem readSign_append {sign ds r : List Char} (hsign : sign ∈ [[], ['+'], ['-']]) (hne : ds ≠ [])
    (hds : ∀ c ∈ ds, c.isDigit) : readSign (sign ++ (ds ++ r)) = (sign, ds ++ r) := by
  obtain ⟨d, ds, rfl⟩ := List.exists_cons_of_ne_nil hne
  have hd := hds d List.mem_cons_self
  have hplus : d ≠ '+' := by rintro rfl; exact absurd hd (by decide)
  have hminus : d ≠ '-' := by rintro rfl; exact absurd hd (by decide)
  simp only [List.mem_cons, List.not_mem_nil, or_false] at hsign
  rcases hsign with rfl | rfl | rfl
  · simp [readSign, hplus, hminus]
  · rfl
  · rfl

/-- How a fraction is written. -/
def fractionChars : Option (List Char) → List Char
  | some ds => '.' :: ds
  | none => []

/-- How an exponent is written. -/
def exponentChars : Option (Char × List Char × List Char) → List Char
  | some (letter, sign, ds) => letter :: (sign ++ ds)
  | none => []

theorem chars_eq (n : Numeral) :
    n.chars = n.whole ++ (fractionChars n.fraction ++ exponentChars n.exponent) := by
  obtain ⟨whole, _ | ds, _ | ⟨letter, sign, ds'⟩⟩ := n <;>
    simp [chars, fractionChars, exponentChars]

theorem readSign_chars (cs : List Char) : (readSign cs).1 ++ (readSign cs).2 = cs := by
  unfold readSign
  split <;> rfl

theorem readFraction_split (cs : List Char) :
    fractionChars (readFraction cs).1 ++ (readFraction cs).2 = cs := by
  unfold readFraction
  split
  · simp [fractionChars]
  · rfl

theorem readExponent_split (cs : List Char) :
    exponentChars (readExponent cs).1 ++ (readExponent cs).2 = cs := by
  unfold readExponent
  split
  · dsimp only
    split
    · simp [exponentChars, readSign_chars]
    · rfl
  · rfl

theorem snd_readFraction {cs : List Char} (h : (readFraction cs).1 = none) :
    (readFraction cs).2 = cs := by
  have hsplit := readFraction_split cs
  rwa [h] at hsplit

theorem snd_readExponent {cs : List Char} (h : (readExponent cs).1 = none) :
    (readExponent cs).2 = cs := by
  have hsplit := readExponent_split cs
  rwa [h] at hsplit

/-- There is no exponent without its letter, or without a digit behind the sign. -/
theorem fst_readExponent {c : Char} {cs : List Char} : (readExponent (c :: cs)).1 = none ↔
    (c = 'e' ∨ c = 'E' → ∀ d ∈ (readSign cs).2.head?, ¬ d.isDigit) := by
  have hdigits : (readSign cs).2.takeWhile Char.isDigit = [] ↔
      ∀ d ∈ (readSign cs).2.head?, ¬ d.isDigit := by
    cases (readSign cs).2 with
    | nil => simp
    | cons d ds => cases hd : d.isDigit <;> simp [hd]
  rw [readExponent, ← hdigits]
  split <;> simp_all

/-- The text does not go on with the numeral. -/
structure Stops (n : Numeral) (r : List Char) : Prop where
  digit : ∀ c ∈ r.head?, ¬ c.isDigit
  point : n.fraction = none → n.exponent = none → r.head? ≠ some '.'
  exponent : n.exponent = none → (readExponent r).1 = none

theorem Stops.of_head {n : Numeral} {r : List Char} (h : ∀ c ∈ r.head?, ¬ inNumber c) :
    n.Stops r where
  digit := fun c hc hdigit => h c hc (.inl hdigit)
  point := fun _ _ hpoint => h '.' hpoint (.inr (.inl rfl))
  exponent := by
    intro _
    cases r with
    | nil => rfl
    | cons c r =>
        rw [readExponent, if_neg fun hc => h c rfl (.inr (.inr hc.1))]

section Chars

variable {n : Numeral} (hn : n.Proper) {r : List Char}

include hn

theorem exponentChars_begins (hr : n.Stops r) :
    ∀ c ∈ (exponentChars n.exponent ++ r).head?, ¬ c.isDigit ∧ (n.fraction = none → c ≠ '.') := by
  intro c hc
  match he : n.exponent with
  | none =>
      rw [he] at hc
      exact ⟨hr.digit c hc, fun hf hpoint => hr.point hf he (hpoint ▸ hc)⟩
  | some (letter, sign, ds) =>
      rw [he] at hc
      cases hc
      obtain ⟨rfl | rfl, -⟩ := hn.exponent _ _ _ he <;> exact ⟨by decide, fun _ => by decide⟩

theorem readExponent_chars (hr : n.Stops r) :
    readExponent (exponentChars n.exponent ++ r) = (n.exponent, r) := by
  match he : n.exponent with
  | none =>
      exact Prod.ext (hr.exponent he) (snd_readExponent (hr.exponent he))
  | some (letter, sign, ds) =>
      obtain ⟨hletter, hsign, hne, hds⟩ := hn.exponent _ _ _ he
      simp only [exponentChars, List.cons_append, List.append_assoc, readExponent,
        readSign_append hsign hne hds, takeWhile_front hds hr.digit, dropWhile_front hds hr.digit]
      exact if_pos ⟨hletter, hne⟩

theorem readFraction_chars (hr : ∀ c ∈ r.head?, ¬ c.isDigit ∧ (n.fraction = none → c ≠ '.')) :
    readFraction (fractionChars n.fraction ++ r) = (n.fraction, r) := by
  match hf : n.fraction with
  | none =>
      cases r with
      | nil => rfl
      | cons c r => simp [fractionChars, readFraction, (hr c rfl).2 hf]
  | some ds =>
      have hds := hn.fraction _ hf
      have hdigit : ∀ c ∈ r.head?, ¬ c.isDigit := fun c hc => (hr c hc).1
      simp only [fractionChars, List.cons_append, readFraction, takeWhile_front hds hdigit,
        dropWhile_front hds hdigit]

/-- A numeral is read as far as it goes. -/
theorem read_of_stops (hr : n.Stops r) : read (n.chars ++ r) = (n, r) := by
  have hexponent := exponentChars_begins hn hr
  have hfraction : ∀ c ∈ (fractionChars n.fraction ++ (exponentChars n.exponent ++ r)).head?,
      ¬ c.isDigit := by
    intro c hc
    match hf : n.fraction with
    | none =>
        rw [hf] at hc
        exact (hexponent c hc).1
    | some ds =>
        rw [hf] at hc
        cases hc
        decide
  rw [chars_eq, List.append_assoc, List.append_assoc, read, takeWhile_front hn.whole hfraction,
    dropWhile_front hn.whole hfraction, readFraction_chars hn hexponent]
  simp only [readExponent_chars hn hr]

theorem read_chars (hr : ∀ c ∈ r.head?, ¬ inNumber c) : read (n.chars ++ r) = (n, r) :=
  read_of_stops hn (.of_head hr)

end Chars

theorem chars_read (cs : List Char) : (read cs).1.chars ++ (read cs).2 = cs := by
  simp only [chars_eq, read, List.append_assoc, readExponent_split, readFraction_split,
    List.takeWhile_append_dropWhile]

theorem isDigit_of_mem_takeWhile {cs : List Char} {c : Char} (h : c ∈ cs.takeWhile Char.isDigit) :
    c.isDigit :=
  List.all_eq_true.mp List.all_takeWhile c h

theorem read_proper (cs : List Char) : (read cs).1.Proper where
  whole := fun c hc => isDigit_of_mem_takeWhile hc
  fraction := by
    intro ds hds c hc
    simp only [read, readFraction] at hds
    split at hds
    · cases hds
      exact isDigit_of_mem_takeWhile hc
    · cases hds
  exponent := by
    intro letter sign ds he
    simp only [read] at he
    generalize (readFraction (cs.dropWhile Char.isDigit)).2 = r at he
    cases r with
    | nil => cases he
    | cons c r =>
        simp only [readExponent] at he
        split at he
        · rename_i h
          cases he
          refine ⟨h.1, ?_, h.2, fun c hc => isDigit_of_mem_takeWhile hc⟩
          unfold readSign
          split <;> simp
        · cases he

theorem head_readFraction {cs : List Char} (h : ∀ c ∈ cs.head?, ¬ c.isDigit) :
    ∀ c ∈ (readFraction cs).2.head?, ¬ c.isDigit := by
  unfold readFraction
  split
  · exact head_dropWhile _
  · exact h

theorem head_readExponent {cs : List Char} (h : ∀ c ∈ cs.head?, ¬ c.isDigit) :
    ∀ c ∈ (readExponent cs).2.head?, ¬ c.isDigit := by
  unfold readExponent
  split
  · dsimp only
    split
    · exact head_dropWhile _
    · exact h
  · exact h

/-- What is left behind a numeral does not go on with it. -/
theorem read_stops (cs : List Char) : (read cs).1.Stops (read cs).2 where
  digit := head_readExponent (head_readFraction (head_dropWhile cs))
  point := by
    intro hf he
    simp only [read] at hf he ⊢
    rw [snd_readExponent he, snd_readFraction hf]
    intro hpoint
    obtain ⟨r, hr⟩ := List.head?_eq_some_iff.mp hpoint
    rw [hr] at hf
    cases hf
  exponent := by
    intro he
    simp only [read] at he ⊢
    rwa [snd_readExponent he]

theorem value_fits (n : Numeral) : Yields Fits n.value := by
  unfold value
  split
  · split
    · rename_i h
      exact .ok ⟨Int.le_trans (by decide) (Int.natCast_nonneg _), h⟩
    · exact .error
  · exact .ite .error (.ok trivial)
  · exact .ite .error (.ok trivial)
  · exact .ok trivial

end Numeral

end ChatAgent.Calculator.Token

import ChatAgent.Proofs.Scanning
import ChatAgent.Proofs.UncheckedArithmetic

/-!
# Scanning by positions

An expression is scanned by positions in its characters. Here looking at a position where there is
no character, cutting out a piece that is not there and a loop without end have no outcome. None of
this happens, and what is found are the tokens of the text (`Machine.ofText_eq`).
-/

namespace ChatAgent.Calculator

namespace Machine

/-- Whether there is a character at a position and it has a property. -/
def holdsAt (p : Char → Bool) (cs : List Char) (i : Nat) : Option Bool :=
  if i < cs.length then do
    let c ← cs[i]?
    some (p c)
  else some false

/-- The first position from `i` on with a character that does not have a property. -/
def skip (p : Char → Bool) (cs : List Char) : Nat → Nat → Option Nat
  | 0, i => do if ← holdsAt p cs i then none else some i
  | rounds + 1, i => do if ← holdsAt p cs i then skip p cs rounds (i + 1) else some i

/-- The characters from one position up to another. -/
def slice (cs : List Char) (i j : Nat) : Option (List Char) :=
  if i ≤ j ∧ j ≤ cs.length then some ((cs.drop i).take (j - i)) else none

/-- Where a fraction ends that may begin at a position. -/
def skipFraction (rounds : Nat) (cs : List Char) (i : Nat) : Option Nat := do
  if ← holdsAt (· == '.') cs i then skip Char.isDigit cs rounds (i + 1) else some i

def skipSign (cs : List Char) (i : Nat) : Option Nat := do
  if ← holdsAt (fun c => c == '+' || c == '-') cs i then some (i + 1) else some i

/-- Where an exponent ends that may begin at a position. -/
def skipExponent (rounds : Nat) (cs : List Char) (i : Nat) : Option Nat := do
  if ← holdsAt (fun c => c == 'e' || c == 'E') cs i then
    let j ← skipSign cs (i + 1)
    if ← holdsAt Char.isDigit cs j then skip Char.isDigit cs rounds j else some i
  else some i

/-- The number that begins at a position, and where it ends. -/
def number (rounds : Nat) (cs : List Char) (i : Nat) : Option (Except Fault (Number × Nat)) := do
  let j ← skip Char.isDigit cs rounds i
  let j ← skipFraction rounds cs j
  let j ← skipExponent rounds cs j
  let text ← slice cs i j
  some ((Token.Numeral.read text).1.value.map (·, j))

/-- The tokens of one character. -/
def operator? : Char → Option Token
  | '+' => some .plus
  | '-' => some .minus
  | '*' => some .star
  | '/' => some .slash
  | '%' => some .percent
  | '(' => some .openParen
  | ')' => some .closeParen
  | ',' => some .comma
  | _ => none

/-- What begins at a position, a token or white space, and where it ends. -/
def tokenAt (rounds : Nat) (cs : List Char) (i : Nat) :
    Option (Except Fault (Option Token × Nat)) := do
  let c ← cs[i]?
  if Text.isBlank c then some (.ok (none, i + 1))
  else if c.isDigit ∨ c = '.' then do
    let result ← number rounds cs i
    some (result.map fun (n, j) => (some (.number n), j))
  else if Token.beginsName c then do
    let j ← skip Token.inName cs rounds i
    let text ← slice cs i j
    some (.ok (some (.name (String.ofList text)), j))
  else if c = '*' ∧ cs[i + 1]? = some '*' then some (.ok (some .doubleStar, i + 2))
  else if c = '/' ∧ cs[i + 1]? = some '/' then some (.ok (some .doubleSlash, i + 2))
  else
    match operator? c with
    | some t => some (.ok (some t, i + 1))
    | none => some (.error (.malformed (.character c)))

/-- The tokens from a position on, those so far given in reverse. -/
def scan (limit : Nat) (cs : List Char) : Nat → Nat → List Token →
    Option (Except Fault (List Token))
  | 0, i, out => if i < cs.length then none else some (.ok out.reverse)
  | rounds + 1, i, out =>
    if i < cs.length then do
      match ← tokenAt limit cs i with
      | .ok (t, j) => scan limit cs rounds j (t.toList ++ out)
      | .error e => some (.error e)
    else some (.ok out.reverse)

/-- The tokens of an expression. -/
def ofText (limit : Nat) (s : String) : Option (Except Fault (List Token)) := do
  match ← scan limit s.toList limit 0 [] with
  | .ok [] => some (.error (.malformed .empty))
  | .ok ts => some (.ok ts)
  | .error e => some (.error e)

/-! ## Positions -/

/-- At a position a rest of the list begins. -/
structure At {α : Type} (xs : List α) (i : Nat) (r : List α) : Prop where
  le : i ≤ xs.length
  drop : xs.drop i = r

namespace At

section

variable {α : Type} {xs r : List α} {i : Nat}

theorem length (h : At xs i r) : i + r.length = xs.length := by
  rw [← h.drop, List.length_drop]
  exact Nat.add_sub_cancel' h.le

theorem next {x : α} (h : At xs i (x :: r)) : At xs (i + 1) r where
  le := by
    have hlength := h.length
    rw [List.length_cons] at hlength
    omega
  drop := by rw [← List.tail_drop, h.drop, List.tail_cons]

theorem get (h : At xs i r) : xs[i]? = r.head? := by rw [← h.drop, List.head?_drop]

end

variable {cs r text : List Char} {i j : Nat}

theorem holds (h : At cs i r) (p : Char → Bool) : holdsAt p cs i = some (r.head?.any p) := by
  unfold holdsAt
  rw [← h.drop, List.head?_drop]
  split
  · rename_i hi
    simp [hi]
  · rename_i hi
    simp [hi]

theorem slice (h : At cs i (text ++ r)) (h' : At cs j r) : slice cs i j = some text := by
  have hlength := h.length
  have hlength' := h'.length
  rw [List.length_append] at hlength
  have hdiff : j - i = text.length := by omega
  rw [Machine.slice, if_pos ⟨by omega, h'.le⟩, h.drop, hdiff, List.take_left']
  rfl

variable {rounds : Nat}

theorem skip {p : Char → Bool} (h : At cs i r) (hrounds : r.length ≤ rounds) :
    ∃ j, skip p cs rounds i = some j ∧ i ≤ j ∧ At cs j (r.dropWhile p) := by
  induction rounds generalizing i r with
  | zero =>
      obtain rfl : r = [] := List.eq_nil_of_length_eq_zero (Nat.le_zero.mp hrounds)
      exact ⟨i, by simp [Machine.skip, h.holds p], Nat.le_refl i, h⟩
  | succ rounds ih =>
      cases r with
      | nil => exact ⟨i, by simp [Machine.skip, h.holds p], Nat.le_refl i, h⟩
      | cons c r =>
          by_cases hc : p c
          · obtain ⟨j, hj, hij, hat⟩ := ih h.next (Nat.le_of_succ_le_succ hrounds)
            refine ⟨j, ?_, Nat.le_of_succ_le hij, ?_⟩
            · simpa [Machine.skip, h.holds p, hc] using hj
            · rwa [List.dropWhile_cons_of_pos hc]
          · refine ⟨i, by simp [Machine.skip, h.holds p, hc], Nat.le_refl i, ?_⟩
            rwa [List.dropWhile_cons_of_neg hc]

open Token.Numeral (readFraction readSign readExponent)

theorem skipFraction (h : At cs i r) (hrounds : r.length ≤ rounds) :
    ∃ j, skipFraction rounds cs i = some j ∧ i ≤ j ∧ At cs j (readFraction r).2 := by
  simp only [Machine.skipFraction, h.holds, Option.bind_eq_bind, Option.bind_some]
  cases r with
  | nil => exact ⟨i, rfl, Nat.le_refl i, h⟩
  | cons c r =>
      by_cases hc : c = '.'
      · subst hc
        obtain ⟨j, hj, hij, hat⟩ := h.next.skip (p := Char.isDigit) (Nat.le_of_succ_le hrounds)
        exact ⟨j, hj, Nat.le_of_succ_le hij, hat⟩
      · refine ⟨i, by simp [hc], Nat.le_refl i, ?_⟩
        simpa [readFraction, hc] using h

theorem skipSign (h : At cs i r) :
    ∃ j, skipSign cs i = some j ∧ i ≤ j ∧ At cs j (readSign r).2 := by
  simp only [Machine.skipSign, h.holds, Option.bind_eq_bind, Option.bind_some]
  cases r with
  | nil => exact ⟨i, rfl, Nat.le_refl i, h⟩
  | cons c r =>
      by_cases hc : c = '+' ∨ c = '-'
      · refine ⟨i + 1, by simp [hc], Nat.le_succ i, ?_⟩
        rcases hc with rfl | rfl <;> exact h.next
      · rw [not_or] at hc
        refine ⟨i, by simp [hc], Nat.le_refl i, ?_⟩
        simpa [readSign, hc] using h

theorem skipExponent (h : At cs i r) (hrounds : r.length ≤ rounds) :
    ∃ j, skipExponent rounds cs i = some j ∧ i ≤ j ∧ At cs j (readExponent r).2 := by
  simp only [Machine.skipExponent, h.holds, Option.bind_eq_bind, Option.bind_some]
  cases r with
  | nil => exact ⟨i, rfl, Nat.le_refl i, h⟩
  | cons c r =>
      obtain ⟨j, hj, hij, hat⟩ := h.next.skipSign
      have hdigit : (readSign r).2.head?.any Char.isDigit =
          decide ((readSign r).2.takeWhile Char.isDigit ≠ []) := by
        cases (readSign r).2 with
        | nil => rfl
        | cons d ds => cases hd : d.isDigit <;> simp [hd]
      by_cases hc : c = 'e' ∨ c = 'E'
      · by_cases hdigits : (readSign r).2.takeWhile Char.isDigit ≠ []
        · have hrounds : (readSign r).2.length ≤ rounds :=
            Nat.le_trans (Token.Numeral.length_readSign r) (Nat.le_of_succ_le hrounds)
          obtain ⟨k, hk, hjk, hat'⟩ := hat.skip (p := Char.isDigit) hrounds
          refine ⟨k, ?_, by omega, ?_⟩
          · simp [hc, hj, hat.holds, hdigit, hdigits, hk]
          · rw [readExponent, if_pos ⟨hc, hdigits⟩]
            exact hat'
        · refine ⟨i, ?_, Nat.le_refl i, ?_⟩
          · simp [hc, hj, hat.holds, hdigit, hdigits]
          · rw [readExponent, if_neg fun h => hdigits h.2]
            exact h
      · refine ⟨i, by simp [hc], Nat.le_refl i, ?_⟩
        rw [readExponent, if_neg fun h => hc h.1]
        exact h

/-- The text of a number says what it says where it stands. -/
theorem number (h : At cs i r) (hrounds : r.length ≤ rounds) :
    ∃ j, number rounds cs i = some ((Token.Numeral.read r).1.value.map (·, j)) ∧
      At cs j (Token.Numeral.read r).2 := by
  obtain ⟨j, hj, hij, hat⟩ := h.skip (p := Char.isDigit) hrounds
  have hlength : (r.dropWhile Char.isDigit).length ≤ rounds :=
    Nat.le_trans (List.dropWhile_suffix _).length_le hrounds
  obtain ⟨k, hk, hjk, hat'⟩ := hat.skipFraction hlength
  obtain ⟨l, hl, hkl, hend⟩ := hat'.skipExponent
    (Nat.le_trans (Token.Numeral.length_readFraction _) hlength)
  have hat : At cs l (Token.Numeral.read r).2 := hend
  have htext := At.slice (by rwa [Token.Numeral.chars_read]) hat
  have hread := Token.Numeral.read_chars (Token.Numeral.read_proper r) (r := []) nofun
  rw [List.append_nil] at hread
  refine ⟨l, ?_, hat⟩
  simp [Machine.number, hj, hk, hl, htext, hread]

end At

/-! ## Tokens -/

variable {cs r : List Char} {i : Nat}

theorem tokenAt_blank {c : Char} {limit : Nat} (h : At cs i (c :: r)) (hc : Text.isBlank c) :
    tokenAt limit cs i = some (.ok (none, i + 1)) := by
  simp [tokenAt, h.get, hc]

theorem readOperator_eq (c : Char) (r : List Char) :
    Token.readOperator (c :: r) =
      if c = '*' ∧ r.head? = some '*' then some (.doubleStar, r.tail)
      else if c = '/' ∧ r.head? = some '/' then some (.doubleSlash, r.tail)
      else (operator? c).map (·, r) := by
  unfold Token.readOperator
  split
  case h_11 =>
    rename_i hplus hminus hstar hslash hpercent hopen hclose hcomma
    have hnone : operator? c = none := by
      unfold operator?
      split <;> simp_all
    rw [if_neg fun h => hstar r (by rw [h.1]), if_neg fun h => hslash r (by rw [h.1]), hnone]
    rfl
  all_goals
    rename_i heq
    cases heq
    simp_all [operator?, List.head?_eq_some_iff]

/-- A token is found where it begins. -/
theorem tokenAt_eq {c : Char} {limit : Nat} (h : At cs i (c :: r)) (hc : Text.isBlank c = false)
    (hlimit : (c :: r).length ≤ limit) :
    ∃ j, tokenAt limit cs i = some ((Token.read c r).map fun (t, _) => (some t, j)) ∧
      ∀ t r', Token.read c r = .ok (t, r') → At cs j r' := by
  unfold Token.read
  by_cases hnumber : c.isDigit ∨ c = '.'
  · obtain ⟨j, hj, hat⟩ := h.number hlimit
    refine ⟨j, ?_, ?_⟩
    · rw [if_pos hnumber]
      simp only [tokenAt, h.get, List.head?_cons, Option.bind_eq_bind, Option.bind_some, hc,
        if_pos hnumber, hj]
      cases (Token.Numeral.read (c :: r)).1.value <;> rfl
    · intro t r' hread
      rw [if_pos hnumber] at hread
      split at hread <;> cases hread
      exact hat
  by_cases hname : Token.beginsName c
  · obtain ⟨j, hj, hij, hat⟩ := h.skip (p := Token.inName) hlimit
    have hin := Token.inName_iff.mpr (.inl hname)
    have htext : slice cs i j = some (c :: r.takeWhile Token.inName) := by
      refine At.slice ?_ hat
      rwa [← List.takeWhile_cons_of_pos hin, List.takeWhile_append_dropWhile]
    rw [List.dropWhile_cons_of_pos hin] at hat
    refine ⟨j, ?_, ?_⟩
    · simp [tokenAt, h.get, hc, hnumber, hname, hj, htext, Except.map]
    · intro t r' hread
      rw [if_neg hnumber, if_pos hname] at hread
      cases hread
      exact hat
  have hat' : ∀ d, r.head? = some d → At cs (i + 2) r.tail := by
    intro d hd
    cases r with
    | nil => cases hd
    | cons => exact h.next.next
  rw [if_neg hnumber, if_neg hname, readOperator_eq]
  simp only [tokenAt, h.get, h.next.get, List.head?_cons, Option.bind_eq_bind, Option.bind_some, hc,
    if_neg hnumber, if_neg hname]
  by_cases hstar : c = '*' ∧ r.head? = some '*'
  · refine ⟨i + 2, by simp [hstar, Except.map], ?_⟩
    intro t r' hread
    rw [if_pos hstar] at hread
    cases hread
    exact hat' _ hstar.2
  by_cases hslash : c = '/' ∧ r.head? = some '/'
  · refine ⟨i + 2, by simp [hslash, Except.map], ?_⟩
    intro t r' hread
    rw [if_neg hstar, if_pos hslash] at hread
    cases hread
    exact hat' _ hslash.2
  refine ⟨i + 1, ?_, ?_⟩
  · rw [if_neg hstar, if_neg hslash, if_neg hstar, if_neg hslash]
    cases operator? c <;> rfl
  · intro t r' hread
    rw [if_neg hstar, if_neg hslash] at hread
    cases ho : operator? c with
    | none => simp [ho] at hread
    | some u =>
        rw [ho] at hread
        cases hread
        exact h.next

theorem scan_eq {limit rounds : Nat} (h : At cs i r) (hlimit : r.length ≤ limit)
    (hrounds : r.length ≤ rounds) (out : List Token) :
    scan limit cs rounds i out = some (Token.scan r out) := by
  have hlength := h.length
  induction rounds generalizing i r out with
  | zero =>
      obtain rfl : r = [] := List.eq_nil_of_length_eq_zero (Nat.le_zero.mp hrounds)
      rw [scan, if_neg (by simp at hlength; omega), Token.scan]
  | succ rounds ih =>
      cases r with
      | nil => rw [scan, if_neg (by simp at hlength; omega), Token.scan]
      | cons c r =>
          have hi : i < cs.length := by simp at hlength; omega
          rw [scan, if_pos hi]
          by_cases hc : Text.isBlank c
          · rw [tokenAt_blank h hc, Token.scan, if_pos hc]
            exact ih h.next (Nat.le_of_succ_le hlimit) (Nat.le_of_succ_le_succ hrounds) out
              h.next.length
          · rw [Bool.not_eq_true] at hc
            obtain ⟨j, hj, hat⟩ := tokenAt_eq h hc hlimit
            rw [hj]
            cases hread : Token.read c r with
            | error e =>
                rw [Token.scan_error hc hread]
                rfl
            | ok result =>
                obtain ⟨t, r'⟩ := result
                have hshorter := Token.length_read hread
                rw [Token.scan_read hc hread]
                exact ih (hat t r' hread) (by omega) (by omega) (t :: out) (hat t r' hread).length

/-- The tokens of a text are found without a look outside it. -/
theorem ofText_eq {limit : Nat} {s : String} (hlimit : s.length ≤ limit) :
    ofText limit s = some (Token.ofText s) := by
  have hat : At s.toList 0 s.toList := ⟨Nat.zero_le _, List.drop_zero⟩
  rw [ofText, scan_eq hat hlimit hlimit, Token.ofText]
  rcases Token.scan s.toList [] with e | _ | ⟨t, ts⟩ <;> rfl

end Machine

namespace Token

/-! ## What is found -/

theorem Takes.fits {n : Number} {text r : List Char} (h : Takes (.number n) text r) : Fits n := by
  cases h with
  | number _ _ value _ => exact Numeral.value_fits _ _ value
  | symbol hsymbol => cases hsymbol

/-- Numbers fit, and there is no token without a character. -/
theorem Cut.fits {cs : List Char} {ts : List Token} (h : Cut cs ts) :
    (∀ n, .number n ∈ ts → Fits n) ∧ ts.length ≤ cs.length := by
  induction h with
  | nil => exact ⟨nofun, Nat.le_refl 0⟩
  | blank _ _ ih => exact ⟨ih.1, Nat.le_succ_of_le ih.2⟩
  | @token t text r ts h _ ih =>
      constructor
      · rintro n (_ | ⟨_, hn⟩)
        · exact h.fits
        · exact ih.1 n hn
      · obtain ⟨c, cs, rfl, -⟩ := h.read
        have hrest := ih.2
        simp only [List.length_cons, List.length_append]
        omega

theorem ofText_fits {s : String} {ts : List Token} (h : ofText s = .ok ts) :
    (∀ n, .number n ∈ ts → Fits n) ∧ ts.length ≤ s.length :=
  (ofText_eq_ok.mp h).2.fits

end Token

end ChatAgent.Calculator

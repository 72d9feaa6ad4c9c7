import ChatAgent.Json.Reader
import ChatAgent.Json.Text
import Mathlib.Data.List.Induction

/-!
# JSON there and back

The text of a value without floats says what the value does (`Document.ofText?_text`), and if the
value is in order and does not nest too deep it is read again (`ofText?_text`).
-/

namespace ChatAgent.Json

/-- A value without floats, and with integers of 64 bits. -/
inductive Exact : Json → Prop
  | null : Exact .null
  | bool {b} : Exact (.bool b)
  | int {i} (h : -9223372036854775808 ≤ i ∧ i ≤ 18446744073709551615) : Exact (.number (.int i))
  | string {s} : Exact (.string s)
  | array {items} (h : ∀ j ∈ items, Exact j) : Exact (.array items)
  | object {fields} (h : ∀ f ∈ fields, Exact f.2) : Exact (.object fields)

/-- A value without floats that nests at most so deep and has its objects in ascending order. -/
inductive Plain : Nat → Json → Prop
  | null {n} : Plain n .null
  | bool {n b} : Plain n (.bool b)
  | int {n i} (h : -9223372036854775808 ≤ i ∧ i ≤ 18446744073709551615) : Plain n (.number (.int i))
  | string {n s} : Plain n (.string s)
  | array {n items} (h : ∀ j ∈ items, Plain n j) : Plain (n + 1) (.array items)
  | object {n fields} (sorted : fields.Pairwise (·.1 < ·.1)) (h : ∀ f ∈ fields, Plain n f.2) :
      Plain (n + 1) (.object fields)

theorem Plain.exact {n : Nat} {j : Json} (h : Plain n j) : Exact j := by
  induction h with
  | null => exact .null
  | bool => exact .bool
  | int h => exact .int h
  | string => exact .string
  | array _ ih => exact .array ih
  | object _ _ ih => exact .object ih

/-! ## Strings -/

namespace Token

/-- The part of a string that a character is read as. -/
def pieceOf (c : Char) : Piece :=
  if (escape c).length = 6 then .unit c.toNat else .char c

theorem codeUnit?_hexDigit : ∀ n < 32,
    codeUnit? '0' '0' (hexDigit (n / 16)) (hexDigit n) = some n := by
  decide

theorem readString_escape (c : Char) (s : List (Option Char)) (out : List Piece) :
    readString ((escape c).map some ++ s) out = readString s (pieceOf c :: out) := by
  unfold pieceOf escape
  split
  case h_8 hquote hslash _ _ _ _ _ =>
    split
    · rename_i h
      simp [readString, codeUnit?_hexDigit _ h]
    · rename_i h
      have hread : readString (some c :: s) out = readString s (.char c :: out) := by
        rw [readString, if_neg h]
        · exact hquote
        · exact fun _ _ _ _ _ _ => hslash
        · exact fun _ _ _ => hslash
        · exact hslash
      simpa using hread
  all_goals rfl

theorem readString_flatMap (cs : List Char) (s : List (Option Char)) (out : List Piece) :
    readString ((cs.flatMap escape).map some ++ some '"' :: s) out =
      some (out.reverse ++ cs.map pieceOf, s) := by
  induction cs generalizing out with
  | nil => simp [readString]
  | cons c cs ih =>
      rw [List.flatMap_cons, List.map_append, List.append_assoc, readString_escape, ih]
      simp

theorem join_unit {n : Nat} (h : n < 32) (ps : List Piece) (out : List Char) :
    Piece.join (.unit n :: ps) out = Piece.join ps (Char.ofNat n :: out) := by
  have hhigh : Piece.isHigh n = false := by simp [Piece.isHigh]; omega
  have hlow : Piece.isLow n = false := by simp [Piece.isLow]; omega
  cases ps with
  | nil => simp [Piece.join, hhigh, hlow]
  | cons p ps => cases p <;> simp [Piece.join, hhigh, hlow]

theorem join_pieceOf (c : Char) (ps : List Piece) (out : List Char) :
    Piece.join (pieceOf c :: ps) out = Piece.join ps (c :: out) := by
  unfold pieceOf
  split
  · rename_i h
    have hc : c.toNat < 32 := by
      unfold escape at h
      split at h <;> simp_all
      split at h <;> simp_all
    rw [join_unit hc, Char.ofNat_toNat]
  · rfl

theorem join_map_pieceOf (cs : List Char) (out : List Char) :
    Piece.join (cs.map pieceOf) out = some (String.ofList (out.reverse ++ cs)) := by
  induction cs generalizing out with
  | nil => simp [Piece.join]
  | cons c cs ih =>
      rw [List.map_cons, join_pieceOf, ih]
      simp

theorem read_stringChars (s : String) (rest : List Char) :
    read ((stringChars s ++ rest).map some) = some (.string (some s), rest.map some) := by
  have hs := readString_flatMap s.toList (rest.map some) []
  simp only [stringChars, List.cons_append, List.append_assoc, List.nil_append, List.map_cons,
    List.map_append, read, hs]
  simp [join_map_pieceOf]

end Token

/-! ## Integers -/

/-- Characters that do not go on with a number. -/
def Stops (cs : List Char) : Prop := ∀ c ∈ cs.head?, ¬ c.isDigit ∧ c ≠ '.' ∧ c ≠ 'e' ∧ c ≠ 'E'

namespace Literal

/-- The value of a digit. -/
def digitValue (c : Char) : Nat := c.toNat - '0'.toNat

section Digits

variable {ds : List Char} {rest : List Char}

theorem digits_append (hds : ∀ c ∈ ds, c.isDigit) (hrest : Stops rest) :
    digits ((ds ++ rest).map some) = ds.map digitValue := by
  have hend : (rest.map some).takeWhile isDigit = [] := by
    cases rest with
    | nil => rfl
    | cons c rest => simp [isDigit, (hrest c rfl).1]
  rw [digits, List.map_append, List.takeWhile_append_of_pos (by simpa [isDigit] using hds), hend,
    List.append_nil, List.filterMap_map]
  exact congrFun List.filterMap_eq_map ds

theorem afterDigits_append (hds : ∀ c ∈ ds, c.isDigit) (hrest : Stops rest) :
    afterDigits ((ds ++ rest).map some) = rest.map some := by
  rw [afterDigits, List.map_append, List.dropWhile_append_of_pos (by simpa [isDigit] using hds)]
  cases rest with
  | nil => rfl
  | cons c rest => simp [isDigit, (hrest c rfl).1]

theorem natOf_map_digitValue (ds : List Char) :
    natOf (ds.map digitValue) = Nat.ofDigitChars 10 ds 0 := by
  rw [natOf, List.foldl_map, Nat.ofDigitChars_eq_foldl]
  simp only [Nat.mul_comm, digitValue]

/-- A number does not begin with a zero, unless it is zero. -/
theorem exists_toDigits (n : Nat) (hn : n ≠ 0) :
    ∃ c cs, Nat.toDigits 10 n = c :: cs ∧ digitValue c ≠ 0 := by
  induction n using Nat.strongRecOn with
  | ind n ih =>
      by_cases h : n < 10
      · refine ⟨n.digitChar, [], Nat.toDigits_of_lt_base h, ?_⟩
        rw [digitValue, show '0'.toNat = 48 from rfl, Nat.toNat_digitChar_sub_48_of_lt_ten h]
        exact hn
      · obtain ⟨c, cs, hcs, hc⟩ := ih (n / 10) (by omega) (by omega)
        refine ⟨c, cs ++ [(n % 10).digitChar], ?_, hc⟩
        rw [Nat.toDigits_of_base_le (by decide) (by omega), hcs]
        rfl

theorem isWholePart_toDigits (n : Nat) : isWholePart ((Nat.toDigits 10 n).map digitValue) := by
  by_cases hn : n = 0
  · subst hn
    decide
  · obtain ⟨c, cs, hcs, hc⟩ := exists_toDigits n hn
    rw [hcs]
    cases cs with
    | nil => rfl
    | cons d cs => simp [isWholePart, hc]

theorem readUnsigned_toDigits (negative : Bool) (n : Nat) (hrest : Stops rest) :
    readUnsigned negative ((Nat.toDigits 10 n ++ rest).map some) =
      some (⟨negative, (Nat.toDigits 10 n).map digitValue, [], none⟩, rest.map some) := by
  have hds : ∀ c ∈ Nat.toDigits 10 n, c.isDigit := fun c hc =>
    Nat.isDigit_of_mem_toDigits (by decide) (by decide) hc
  have hfraction : readFraction (rest.map some) = some ([], rest.map some) := by
    cases rest with
    | nil => rfl
    | cons c rest =>
        rw [List.map_cons, readFraction]
        rintro _ he
        cases he
        exact (hrest _ rfl).2.1 rfl
  have hexponent : readExponent (rest.map some) = some (none, rest.map some) := by
    cases rest with
    | nil => rfl
    | cons c rest =>
        rw [List.map_cons, readExponent]
        · rintro _ he
          cases he
          exact (hrest _ rfl).2.2.1 rfl
        · rintro _ he
          cases he
          exact (hrest _ rfl).2.2.2 rfl
  rw [readUnsigned, digits_append hds hrest, afterDigits_append hds hrest,
    if_pos (isWholePart_toDigits n)]
  simp only [hfraction, hexponent]

end Digits

theorem natOf_toDigits (n : Nat) : natOf ((Nat.toDigits 10 n).map digitValue) = n := by
  rw [natOf_map_digitValue, Nat.ofDigitChars_ten_toDigits]

theorem number?_whole {n : Nat} (h : n ≤ 18446744073709551615) :
    number? ⟨false, (Nat.toDigits 10 n).map digitValue, [], none⟩ = some (.int n) := by
  have hfits : n ≤ word64Max := h
  simp [number?, natOf_toDigits, isWhole, hfits]

theorem number?_negative {n : Nat} (hn : n ≠ 0) (h : n ≤ 9223372036854775808) :
    number? ⟨true, (Nat.toDigits 10 n).map digitValue, [], none⟩ = some (.int (-n)) := by
  simp [number?, natOf_toDigits, isWhole, hn, h]

end Literal

namespace Token

theorem read_literal {c : Char} (hc : c.isDigit ∨ c = '-') (s : List (Option Char)) :
    read (some c :: s) =
      match Literal.read (some c :: s) with
      | some (l, s) => some (.number l.number?, s)
      | none => none := by
  unfold read
  split
  case h_11 => rfl
  all_goals
    rename_i he
    cases he
    exact absurd hc (by decide)

theorem numberChars_ofNat (n : Nat) : numberChars (.int (.ofNat n)) = Nat.toDigits 10 n :=
  Nat.toList_repr

theorem numberChars_negSucc (n : Nat) :
    numberChars (.int (.negSucc n)) = '-' :: Nat.toDigits 10 (n + 1) := by
  rw [← Nat.toList_repr]
  exact String.toList_append

theorem read_numberChars {i : Int} (h : -9223372036854775808 ≤ i ∧ i ≤ 18446744073709551615)
    {rest : List Char} (hrest : Stops rest) :
    read ((numberChars (.int i) ++ rest).map some) =
      some (.number (some (.int i)), rest.map some) := by
  cases i with
  | ofNat n =>
      obtain ⟨c, cs, hcs⟩ := List.exists_cons_of_ne_nil (Nat.toDigits_ne_nil (n := n) (b := 10))
      have hc : c.isDigit := by
        apply Nat.isDigit_of_mem_toDigits (b := 10) (n := n) (by decide) (by decide)
        rw [hcs]
        exact List.mem_cons_self
      have hminus : c ≠ '-' := by
        rintro rfl
        revert hc
        decide
      have hunsigned := Literal.readUnsigned_toDigits false n hrest
      rw [numberChars_ofNat]
      rw [hcs, List.cons_append, List.map_cons] at hunsigned ⊢
      rw [read_literal (.inl hc), Literal.read, hunsigned]
      · have hn : (n : Int) ≤ 18446744073709551615 := h.2
        dsimp only
        rw [← hcs, Literal.number?_whole (by omega)]
        rfl
      · rintro _ he
        cases he
        exact hminus rfl
  | negSucc n =>
      rw [numberChars_negSucc, List.cons_append, List.map_cons, read_literal (.inr rfl),
        Literal.read, Literal.readUnsigned_toDigits true (n + 1) hrest]
      dsimp only
      rw [Literal.number?_negative (by omega) (by omega)]
      rfl

end Token

/-! ## Tokens -/

mutual

/-- The tokens of a value. -/
def tokens : Json → List Token
  | .null => [.null]
  | .bool b => [.bool b]
  | .number n => [.number (some n)]
  | .string s => [.string (some s)]
  | .array [] => [.openArray, .closeArray]
  | .array (v :: vs) => .openArray :: (tokens v ++ itemTokens vs)
  | .object [] => [.openObject, .closeObject]
  | .object ((k, v) :: fs) =>
    .openObject :: .string (some k) :: .colon :: (tokens v ++ fieldTokens fs)

def itemTokens : List Json → List Token
  | [] => [.closeArray]
  | v :: vs => .comma :: (tokens v ++ itemTokens vs)

def fieldTokens : List (String × Json) → List Token
  | [] => [.closeObject]
  | (k, v) :: fs => .comma :: .string (some k) :: .colon :: (tokens v ++ fieldTokens fs)

end

namespace Token

theorem scan_eq (s : List (Option Char)) (out : List Token) :
    scan s out =
      match s.dropWhile isSpace with
      | [] => some out.reverse
      | c :: r =>
        match read (c :: r) with
        | some (t, rest) => scan rest (t :: out)
        | none => none := by
  rw [scan]
  split
  · rename_i he
    rw [he]
  · rename_i he
    rw [he]
    dsimp only
    split <;> rename_i hr <;> rw [hr]

theorem scan_space {s : List (Option Char)} (hs : ∀ c ∈ s, isSpace c) (r : List (Option Char))
    (out : List Token) : scan (s ++ r) out = scan r out := by
  rw [scan_eq, scan_eq r, List.dropWhile_append_of_pos hs]

theorem scan_read {c : Char} {s r : List (Option Char)} {t : Token} (hc : isSpace (some c) = false)
    (h : read (some c :: s) = some (t, r)) (out : List Token) :
    scan (some c :: s) out = scan r (t :: out) := by
  have hdrop : (some c :: s).dropWhile isSpace = some c :: s := by simp [hc]
  rw [scan_eq, hdrop]
  dsimp only
  rw [h]

theorem numberChars_begins (i : Int) :
    ∃ c cs, numberChars (.int i) = c :: cs ∧ isSpace (some c) = false := by
  cases i with
  | ofNat n =>
      obtain ⟨c, cs, hcs⟩ := List.exists_cons_of_ne_nil (Nat.toDigits_ne_nil (n := n) (b := 10))
      have hc : c.isDigit := by
        apply Nat.isDigit_of_mem_toDigits (b := 10) (n := n) (by decide) (by decide)
        rw [hcs]
        exact List.mem_cons_self
      refine ⟨c, cs, (numberChars_ofNat n).trans hcs, ?_⟩
      by_contra hspace
      simp only [isSpace, Bool.not_eq_false, Bool.or_eq_true, beq_iff_eq] at hspace
      rcases hspace with ((rfl | rfl) | rfl) | rfl <;> revert hc <;> decide
  | negSucc n => exact ⟨'-', _, numberChars_negSucc n, rfl⟩

/-- The text of a value is scanned as its tokens. -/
def Scans (j : Json) : Prop :=
  ∀ rest out, Stops rest →
    scan ((chars j ++ rest).map some) out = scan (rest.map some) ((tokens j).reverse ++ out)

theorem stops_itemChars (vs : List Json) (rest : List Char) : Stops (itemChars vs ++ rest) := by
  cases vs <;> simp [itemChars, Stops]

theorem stops_fieldChars (fs : List (String × Json)) (rest : List Char) :
    Stops (fieldChars fs ++ rest) := by
  rcases fs with _ | ⟨⟨k, v⟩, fs⟩ <;> simp [fieldChars, Stops]

theorem scan_itemChars {vs : List Json} (h : ∀ v ∈ vs, Scans v) (rest : List Char)
    (out : List Token) :
    scan ((itemChars vs ++ rest).map some) out =
      scan (rest.map some) ((itemTokens vs).reverse ++ out) := by
  induction vs generalizing out with
  | nil => exact scan_read rfl rfl out
  | cons v vs ih =>
      have hcomma : scan ((itemChars (v :: vs) ++ rest).map some) out =
          scan ((chars v ++ (itemChars vs ++ rest)).map some) (.comma :: out) := by
        rw [itemChars, List.cons_append, List.append_assoc]
        exact scan_read rfl rfl out
      rw [hcomma, h v List.mem_cons_self _ _ (stops_itemChars vs rest),
        ih (fun w hw => h w (List.mem_cons_of_mem _ hw)), itemTokens]
      simp

/-- The name of a field and the colon. -/
theorem scan_name (k : String) (rest : List Char) (out : List Token) :
    scan ((stringChars k ++ ':' :: rest).map some) out =
      scan (rest.map some) (.colon :: .string (some k) :: out) :=
  (scan_read rfl (read_stringChars k (':' :: rest)) out).trans (scan_read rfl rfl _)

theorem scan_fieldChars {fs : List (String × Json)} (h : ∀ f ∈ fs, Scans f.2) (rest : List Char)
    (out : List Token) :
    scan ((fieldChars fs ++ rest).map some) out =
      scan (rest.map some) ((fieldTokens fs).reverse ++ out) := by
  induction fs generalizing out with
  | nil => exact scan_read rfl rfl out
  | cons f fs ih =>
      obtain ⟨k, v⟩ := f
      have hcomma : scan ((fieldChars ((k, v) :: fs) ++ rest).map some) out =
          scan ((stringChars k ++ ':' :: (chars v ++ (fieldChars fs ++ rest))).map some)
            (.comma :: out) := by
        rw [fieldChars, List.cons_append, List.append_assoc, List.cons_append, List.append_assoc]
        exact scan_read rfl rfl out
      rw [hcomma, scan_name, h (k, v) List.mem_cons_self _ _ (stops_fieldChars fs rest),
        ih (fun g hg => h g (List.mem_cons_of_mem _ hg)), fieldTokens]
      simp

theorem Scans.of_exact {j : Json} (h : Exact j) : Scans j := by
  induction h with
  | null => exact fun rest out _ => scan_read rfl rfl out
  | @bool b =>
      cases b with
      | true => exact fun rest out _ => scan_read rfl rfl out
      | false => exact fun rest out _ => scan_read rfl rfl out
  | @int i h =>
      intro rest out hrest
      obtain ⟨c, cs, hcs, hc⟩ := numberChars_begins i
      have hread := read_numberChars h hrest
      rw [chars, hcs] at *
      exact scan_read hc hread out
  | @string s => exact fun rest out _ => scan_read rfl (read_stringChars s rest) out
  | @array items _ ih =>
      intro rest out _
      cases items with
      | nil => exact (scan_read rfl rfl out).trans (scan_read rfl rfl _)
      | cons v vs =>
          have hopen : scan ((chars (.array (v :: vs)) ++ rest).map some) out =
              scan ((chars v ++ (itemChars vs ++ rest)).map some) (.openArray :: out) := by
            rw [chars, List.cons_append, List.append_assoc]
            exact scan_read rfl rfl out
          rw [hopen, ih v List.mem_cons_self _ _ (stops_itemChars vs rest),
            scan_itemChars fun w hw => ih w (List.mem_cons_of_mem _ hw)]
          simp [tokens]
  | @object fields _ ih =>
      intro rest out _
      rcases fields with _ | ⟨⟨k, v⟩, fs⟩
      · exact (scan_read rfl rfl out).trans (scan_read rfl rfl _)
      · have hopen : scan ((chars (.object ((k, v) :: fs)) ++ rest).map some) out =
            scan ((stringChars k ++ ':' :: (chars v ++ (fieldChars fs ++ rest))).map some)
              (.openObject :: out) := by
          rw [chars, List.cons_append, List.append_assoc, List.cons_append, List.append_assoc]
          exact scan_read rfl rfl out
        rw [hopen, scan_name, ih (k, v) List.mem_cons_self _ _ (stops_fieldChars fs rest),
          scan_fieldChars fun g hg => ih g (List.mem_cons_of_mem _ hg)]
        simp [tokens]

/-- White space around a text is of no account. -/
theorem ofText?_spaced {j : Json} (h : Exact j) {before after : String}
    (hbefore : ∀ c ∈ before.toList, isSpace (some c))
    (hafter : ∀ c ∈ after.toList, isSpace (some c)) :
    ofText? (before ++ j.text ++ after) = some (tokens j) := by
  have hspace {s : List Char} (hs : ∀ c ∈ s, isSpace (some c)) : ∀ c ∈ s.map some, isSpace c := by
    simpa using hs
  have hstops : Stops after.toList := by
    intro c hc
    have hin := hafter c (List.mem_of_mem_head? hc)
    simp only [isSpace, Bool.or_eq_true, beq_iff_eq] at hin
    rcases hin with ((rfl | rfl) | rfl) | rfl <;> decide
  have hend (out : List Token) : scan (after.toList.map some) out = some out.reverse := by
    rw [← List.append_nil (after.toList.map some), scan_space (hspace hafter), scan_eq]
    rfl
  rw [ofText?, String.toList_append, String.toList_append, text, String.toList_ofList,
    List.append_assoc, List.map_append, scan_space (hspace hbefore),
    Scans.of_exact h _ _ hstops, hend, List.append_nil, List.reverse_reverse]

theorem ofText?_text {j : Json} (h : Exact j) : ofText? j.text = some (tokens j) := by
  have hspaced := @ofText?_spaced j h "" "" nofun nofun
  rwa [String.empty_append, String.append_empty] at hspaced

end Token

/-! ## Characters

No text has a control character in it, so it makes up one line. -/

theorem visible_of_all {cs : List Char} (h : cs.all fun c => 0x20 ≤ c.toNat) :
    ∀ c ∈ cs, 0x20 ≤ c.toNat :=
  fun c hc => of_decide_eq_true (List.all_eq_true.mp h c hc)

theorem visible_escape (c : Char) : ∀ d ∈ escape c, 0x20 ≤ d.toNat := by
  have hhex : ∀ n < 32, 0x20 ≤ (hexDigit (n / 16)).toNat ∧ 0x20 ≤ (hexDigit n).toNat := by decide
  unfold escape
  split
  case h_8 =>
    split
    · rename_i h
      have hdigits := hhex _ h
      simp [hdigits]
    · rename_i h
      simpa using h
  all_goals exact visible_of_all rfl

theorem visible_stringChars (s : String) : ∀ c ∈ stringChars s, 0x20 ≤ c.toNat := by
  intro c hc
  simp only [stringChars, List.mem_cons, List.mem_append, List.mem_flatMap, List.not_mem_nil,
    or_false] at hc
  rcases hc with rfl | ⟨d, -, hc⟩ | rfl
  · decide
  · exact visible_escape d c hc
  · decide

theorem visible_numberChars (i : Int) : ∀ c ∈ numberChars (.int i), 0x20 ≤ c.toNat := by
  have hdigits (n : Nat) : ∀ c ∈ Nat.toDigits 10 n, 0x20 ≤ c.toNat := by
    intro c hc
    have hdigit := Nat.isDigit_of_mem_toDigits (by decide) (by decide) hc
    exact Nat.le_trans (by decide) (Char.isDigit_iff_toNat.mp hdigit).1
  intro c hc
  cases i with
  | ofNat n =>
      rw [Token.numberChars_ofNat] at hc
      exact hdigits n c hc
  | negSucc n =>
      rw [Token.numberChars_negSucc, List.mem_cons] at hc
      rcases hc with rfl | hc
      · decide
      · exact hdigits _ c hc

theorem visible_itemChars {vs : List Json} (h : ∀ v ∈ vs, ∀ c ∈ chars v, 0x20 ≤ c.toNat) :
    ∀ c ∈ itemChars vs, 0x20 ≤ c.toNat := by
  induction vs with
  | nil => exact visible_of_all rfl
  | cons v vs ih =>
      intro c hc
      simp only [itemChars, List.mem_cons, List.mem_append] at hc
      rcases hc with rfl | hc | hc
      · decide
      · exact h v List.mem_cons_self c hc
      · exact ih (fun w hw => h w (List.mem_cons_of_mem _ hw)) c hc

theorem visible_fieldChars {fs : List (String × Json)}
    (h : ∀ f ∈ fs, ∀ c ∈ chars f.2, 0x20 ≤ c.toNat) :
    ∀ c ∈ fieldChars fs, 0x20 ≤ c.toNat := by
  induction fs with
  | nil => exact visible_of_all rfl
  | cons f fs ih =>
      intro c hc
      simp only [fieldChars, List.mem_cons, List.mem_append] at hc
      rcases hc with rfl | hc | rfl | hc | hc
      · decide
      · exact visible_stringChars f.1 c hc
      · decide
      · exact h f List.mem_cons_self c hc
      · exact ih (fun g hg => h g (List.mem_cons_of_mem _ hg)) c hc

theorem visible_chars {j : Json} (h : Exact j) : ∀ c ∈ chars j, 0x20 ≤ c.toNat := by
  induction h with
  | null => exact visible_of_all rfl
  | @bool b => cases b <;> exact visible_of_all rfl
  | @int i => exact visible_numberChars i
  | @string s => exact visible_stringChars s
  | @array items _ ih =>
      cases items with
      | nil => exact visible_of_all rfl
      | cons v vs =>
          intro c hc
          simp only [chars, List.mem_cons, List.mem_append] at hc
          rcases hc with rfl | hc | hc
          · decide
          · exact ih v List.mem_cons_self c hc
          · exact visible_itemChars (fun w hw => ih w (List.mem_cons_of_mem _ hw)) c hc
  | @object fields _ ih =>
      cases fields with
      | nil => exact visible_of_all rfl
      | cons f fs =>
          intro c hc
          simp only [chars, List.mem_cons, List.mem_append] at hc
          rcases hc with rfl | hc | rfl | hc | hc
          · decide
          · exact visible_stringChars f.1 c hc
          · decide
          · exact ih f List.mem_cons_self c hc
          · exact visible_fieldChars (fun g hg => ih g (List.mem_cons_of_mem _ hg)) c hc

/-! ## Documents -/

mutual

/-- The document that the text of a value says. -/
def toDocument : Json → Document
  | .null => .null
  | .bool b => .bool b
  | .number n => .number (some n)
  | .string s => .string (some s)
  | .array items => .array (itemDocuments items)
  | .object fields => .object (fieldDocuments fields)

def itemDocuments : List Json → List Document
  | [] => []
  | v :: vs => toDocument v :: itemDocuments vs

def fieldDocuments : List (String × Json) → List (Option String × Document)
  | [] => []
  | (k, v) :: fs => (some k, toDocument v) :: fieldDocuments fs

end

theorem itemDocuments_eq (items : List Json) : itemDocuments items = items.map toDocument := by
  induction items with
  | nil => rfl
  | cons v vs ih => rw [itemDocuments, ih, List.map_cons]

theorem fieldDocuments_eq (fields : List (String × Json)) :
    fieldDocuments fields = fields.map fun f => (some f.1, toDocument f.2) := by
  induction fields with
  | nil => rfl
  | cons f fs ih => rw [fieldDocuments, ih, List.map_cons]

namespace Document

theorem tokens_begins (j : Json) : ∃ t ts, tokens j = t :: ts ∧ t ≠ .closeArray := by
  unfold tokens
  split <;> exact ⟨_, _, rfl, nofun⟩

theorem takeAll_item (j : Json) (stack : List Frame) (ts : List Token) :
    takeAll .item stack (tokens j ++ ts) =
      takeAll .value (.array [] :: stack) (tokens j ++ ts) := by
  obtain ⟨t, us, ht, hne⟩ := tokens_begins j
  rw [ht, List.cons_append]
  cases t with
  | closeArray => exact absurd rfl hne
  | _ => rfl

mutual

/-- The tokens of a value are taken as its document. -/
theorem takeAll_tokens (stack : List Frame) (ts : List Token) : ∀ j : Json,
    takeAll .value stack (tokens j ++ ts) =
      takeAll (close j.toDocument stack).1 (close j.toDocument stack).2 ts
  | .null => rfl
  | .bool _ => rfl
  | .number _ => rfl
  | .string _ => rfl
  | .array [] => rfl
  | .array (v :: vs) => by
      have hopen : takeAll .value stack (tokens (.array (v :: vs)) ++ ts) =
          takeAll .item stack (tokens v ++ (itemTokens vs ++ ts)) := by
        rw [tokens, List.cons_append, List.append_assoc]
        rfl
      rw [hopen, takeAll_item, takeAll_tokens _ _ v]
      exact takeAll_itemTokens [v.toDocument] stack ts vs
  | .object [] => rfl
  | .object ((k, v) :: fs) => by
      have hopen : takeAll .value stack (tokens (.object ((k, v) :: fs)) ++ ts) =
          takeAll .value (.object [] (some k) :: stack) (tokens v ++ (fieldTokens fs ++ ts)) := by
        rw [tokens, List.cons_append, List.cons_append, List.cons_append, List.append_assoc]
        rfl
      rw [hopen, takeAll_tokens _ _ v]
      exact takeAll_fieldTokens [(some k, v.toDocument)] stack ts fs

theorem takeAll_itemTokens (items : List Document) (stack : List Frame) (ts : List Token) :
    ∀ vs : List Json,
    takeAll (.afterItem items) stack (itemTokens vs ++ ts) =
      takeAll (close (.array (items.reverse ++ itemDocuments vs)) stack).1
        (close (.array (items.reverse ++ itemDocuments vs)) stack).2 ts
  | [] => by
      rw [itemDocuments, List.append_nil]
      rfl
  | v :: vs => by
      have hcomma : takeAll (.afterItem items) stack (itemTokens (v :: vs) ++ ts) =
          takeAll .value (.array items :: stack) (tokens v ++ (itemTokens vs ++ ts)) := by
        rw [itemTokens, List.cons_append, List.append_assoc]
        rfl
      rw [hcomma, takeAll_tokens _ _ v]
      refine (takeAll_itemTokens (v.toDocument :: items) stack ts vs).trans ?_
      rw [itemDocuments, List.reverse_cons, List.append_assoc, List.singleton_append]

theorem takeAll_fieldTokens (fields : List (Option String × Document)) (stack : List Frame)
    (ts : List Token) : ∀ fs : List (String × Json),
    takeAll (.afterField fields) stack (fieldTokens fs ++ ts) =
      takeAll (close (.object (fields.reverse ++ fieldDocuments fs)) stack).1
        (close (.object (fields.reverse ++ fieldDocuments fs)) stack).2 ts
  | [] => by
      rw [fieldDocuments, List.append_nil]
      rfl
  | (k, v) :: fs => by
      have hcomma : takeAll (.afterField fields) stack (fieldTokens ((k, v) :: fs) ++ ts) =
          takeAll .value (.object fields (some k) :: stack)
            (tokens v ++ (fieldTokens fs ++ ts)) := by
        rw [fieldTokens, List.cons_append, List.cons_append, List.cons_append, List.append_assoc]
        rfl
      rw [hcomma, takeAll_tokens _ _ v]
      refine (takeAll_fieldTokens ((some k, v.toDocument) :: fields) stack ts fs).trans ?_
      rw [fieldDocuments, List.reverse_cons, List.append_assoc, List.singleton_append]

end

theorem ofTokens?_tokens (j : Json) : ofTokens? (tokens j) = some j.toDocument := by
  have htake := takeAll_tokens [] [] j
  rw [List.append_nil] at htake
  rw [ofTokens?, htake]
  rfl

theorem ofText?_text {j : Json} (h : Exact j) : ofText? j.text = some j.toDocument := by
  rw [ofText?, Token.ofText?_text h, Option.bind_some, ofTokens?_tokens]

end Document

/-! ## Values -/

theorem insertField_last {α : Type} (key : String) (value : α) (fields : List (String × α))
    (h : ∀ f ∈ fields, f.1 < key) : insertField key value fields = fields ++ [(key, value)] := by
  induction fields with
  | nil => rfl
  | cons f fs ih =>
      have hf := h f List.mem_cons_self
      have hne : key ≠ f.1 := fun he => String.lt_irrefl _ (he ▸ hf)
      rw [insertField, if_neg (String.lt_asymm hf), if_neg hne,
        ih fun g hg => h g (List.mem_cons_of_mem _ hg)]
      rfl

theorem sortFields_sorted {α : Type} (fields : List (String × α))
    (h : fields.Pairwise (·.1 < ·.1)) : sortFields fields = fields := by
  induction fields using List.reverseRecOn with
  | nil => rfl
  | append_singleton fields f ih =>
      obtain ⟨hfields, -, hf⟩ := List.pairwise_append.mp h
      have hsort : sortFields (fields ++ [f]) = insertField f.1 f.2 (sortFields fields) := by
        rw [sortFields, List.foldl_append]
        rfl
      rw [hsort, ih hfields,
        insertField_last f.1 f.2 fields fun g hg => hf g hg f (List.mem_singleton.mpr rfl)]

namespace Reader

theorem list_map {α β : Type} {r : Reader α} {toDocument : β → Document} {value : β → α} {n : Nat}
    (bs : List β) (h : ∀ b ∈ bs, r n (toDocument b) = some (value b)) :
    (bs.map toDocument).mapM (r n) = some (bs.map value) := by
  induction bs with
  | nil => rfl
  | cons b bs ih =>
      rw [List.map_cons, List.mapM_cons, h b List.mem_cons_self,
        ih fun c hc => h c (List.mem_cons_of_mem _ hc)]
      rfl

theorem fields_map {α : Type} {r : Document → Option α} (fs : List (String × α))
    {toDocument : α → Document} (h : ∀ f ∈ fs, r (toDocument f.2) = some f.2) :
    fields r (fs.map fun f => (some f.1, toDocument f.2)) = some fs := by
  induction fs with
  | nil => rfl
  | cons f fs ih =>
      have ih := ih fun g hg => h g (List.mem_cons_of_mem _ hg)
      rw [fields] at ih ⊢
      rw [List.map_cons, List.mapM_cons, ih]
      dsimp only
      rw [h f List.mem_cons_self]
      rfl

theorem json_toDocument {n : Nat} {j : Json} (h : Plain n j) : json n j.toDocument = some j := by
  induction h with
  | null | bool => rw [toDocument, json]
  | string | int =>
      rw [toDocument, json]
      rfl
  | @array n items _ ih =>
      have hitems : (items.map toDocument).mapM (json n) = some (items.map id) :=
        list_map items ih
      rw [toDocument, itemDocuments_eq, json, hitems, List.map_id]
      rfl
  | @object n fs sorted _ ih =>
      rw [toDocument, fieldDocuments_eq, json, fields_map fs ih, Option.map_some,
        sortFields_sorted fs sorted]

end Reader

/-- A value that nests no deeper than a reader may enter is read again from its text. -/
theorem ofText?_text {j : Json} (h : Plain Reader.maxLevels j) : ofText? j.text = some j := by
  rw [ofText?, readText?, Document.ofText?_text h.exact, Option.bind_some, Reader.json_toDocument h]

theorem ofText?_spaced {j : Json} (h : Plain Reader.maxLevels j) {before after : String}
    (hbefore : ∀ c ∈ before.toList, Token.isSpace (some c))
    (hafter : ∀ c ∈ after.toList, Token.isSpace (some c)) :
    ofText? (before ++ j.text ++ after) = some j := by
  rw [ofText?, readText?, Document.ofText?, Token.ofText?_spaced h.exact hbefore hafter,
    Option.bind_some, Document.ofTokens?_tokens, Option.bind_some, Reader.json_toDocument h]

end ChatAgent.Json

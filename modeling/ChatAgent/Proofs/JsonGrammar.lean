import ChatAgent.Proofs.JsonText
import Mathlib.Data.List.TakeWhile

/-!
# Which texts are JSON

The grammar of JSON texts (`IsText`). Only a JSON text is understood as a document
(`isText_of_ofText?`).
-/

namespace ChatAgent.Json

/-! ## Tokens -/

/-- White space between tokens. -/
def IsSpace (cs : List Char) : Prop := ∀ c ∈ cs, c = ' ' ∨ c = '\t' ∨ c = '\n' ∨ c = '\r'

def IsHex (c : Char) : Prop := c.isDigit ∨ ('a' ≤ c ∧ c ≤ 'f') ∨ ('A' ≤ c ∧ c ≤ 'F')

/-- What stands between the quotes of a string. -/
inductive IsQuotable : List Char → Prop
  | nil : IsQuotable []
  | plain {c cs} (h : 0x20 ≤ c.toNat) (hquote : c ≠ '"') (hslash : c ≠ '\\') :
      IsQuotable cs → IsQuotable (c :: cs)
  | escape {c cs} (h : c ∈ ['"', '\\', '/', 'b', 'f', 'n', 'r', 't']) :
      IsQuotable cs → IsQuotable ('\\' :: c :: cs)
  | unit {a b c d cs} (h : IsHex a ∧ IsHex b ∧ IsHex c ∧ IsHex d) :
      IsQuotable cs → IsQuotable ('\\' :: 'u' :: a :: b :: c :: d :: cs)

/-- Digits, at least one. -/
def IsDigits (cs : List Char) : Prop := cs ≠ [] ∧ ∀ c ∈ cs, c.isDigit

/-- Digits without a leading zero. -/
def IsWhole (cs : List Char) : Prop := IsDigits cs ∧ (cs.head? = some '0' → cs = ['0'])

def IsFraction (cs : List Char) : Prop := cs = [] ∨ ∃ ds, cs = '.' :: ds ∧ IsDigits ds

def IsExponent (cs : List Char) : Prop :=
  cs = [] ∨ ∃ e sign ds, cs = e :: (sign ++ ds) ∧ (e = 'e' ∨ e = 'E') ∧
    (sign = [] ∨ sign = ['+'] ∨ sign = ['-']) ∧ IsDigits ds

def IsNumber (cs : List Char) : Prop :=
  ∃ sign whole fraction exponent, cs = sign ++ (whole ++ (fraction ++ exponent)) ∧
    (sign = [] ∨ sign = ['-']) ∧ IsWhole whole ∧ IsFraction fraction ∧ IsExponent exponent

/-- How tokens are spelled. -/
inductive Spells : Token → List Char → Prop
  | openArray : Spells .openArray ['[']
  | closeArray : Spells .closeArray [']']
  | openObject : Spells .openObject ['{']
  | closeObject : Spells .closeObject ['}']
  | comma : Spells .comma [',']
  | colon : Spells .colon [':']
  | null : Spells .null ['n', 'u', 'l', 'l']
  | true : Spells (.bool .true) ['t', 'r', 'u', 'e']
  | false : Spells (.bool .false) ['f', 'a', 'l', 's', 'e']
  | number {n cs} (h : IsNumber cs) : Spells (.number n) cs
  | string {s cs} (h : IsQuotable cs) : Spells (.string s) ('"' :: cs ++ ['"'])

/-- Tokens with white space around them. -/
inductive SpellsAll : List Token → List Char → Prop
  | nil {cs} (h : IsSpace cs) : SpellsAll [] cs
  | cons {t ts space cs rest} (h : IsSpace space) (ht : Spells t cs) :
      SpellsAll ts rest → SpellsAll (t :: ts) (space ++ cs ++ rest)

/-! ## Values -/

/-- The tokens of one value. -/
inductive IsValue : List Token → Prop
  | null : IsValue [.null]
  | bool {b} : IsValue [.bool b]
  | number {n} : IsValue [.number n]
  | string {s} : IsValue [.string s]
  | emptyArray : IsValue [.openArray, .closeArray]
  | array {v} {vs : List (List Token)} (h : IsValue v) (hs : ∀ w ∈ vs, IsValue w) :
      IsValue (.openArray :: (v ++ vs.flatMap (.comma :: ·) ++ [.closeArray]))
  | emptyObject : IsValue [.openObject, .closeObject]
  | object {s v} {fs : List (Option String × List Token)} (h : IsValue v)
      (hs : ∀ f ∈ fs, IsValue f.2) :
      IsValue (.openObject :: .string s :: .colon ::
        (v ++ fs.flatMap (fun f => .comma :: .string f.1 :: .colon :: f.2) ++ [.closeObject]))

/-- A JSON text is one value, with white space around its tokens. -/
def IsText (cs : List Char) : Prop := ∃ ts, SpellsAll ts cs ∧ IsValue ts

/-! ## What is scanned is spelled -/

theorem isHex_of_hexValue? {c : Char} {n : Nat} (h : Token.hexValue? c = some n) : IsHex c := by
  unfold Token.hexValue? at h
  split at h
  · exact .inl ‹_›
  · split at h
    · exact .inr (.inl ‹_›)
    · split at h
      · exact .inr (.inr ‹_›)
      · cases h

theorem isHex_of_codeUnit? {a b c d : Char} {n : Nat} (h : Token.codeUnit? a b c d = some n) :
    IsHex a ∧ IsHex b ∧ IsHex c ∧ IsHex d := by
  unfold Token.codeUnit? at h
  split at h
  · rename_i ha hb hc hd
    exact ⟨isHex_of_hexValue? ha, isHex_of_hexValue? hb, isHex_of_hexValue? hc,
      isHex_of_hexValue? hd⟩
  · cases h

theorem mem_of_escaped? {e c : Char} (h : Token.escaped? e = some c) :
    e ∈ ['"', '\\', '/', 'b', 'f', 'n', 'r', 't'] := by
  unfold Token.escaped? at h
  split at h <;> simp_all

theorem of_map_some {cs : List Char} {c : Char} {s : List (Option Char)}
    (h : cs.map some = some c :: s) : ∃ ds, cs = c :: ds ∧ ds.map some = s := by
  obtain ⟨_, ds, rfl, hc, hs⟩ := List.map_eq_cons_iff.mp h
  cases hc
  exact ⟨ds, rfl, hs⟩

theorem Token.readString_sound {cs : List Char} {out ps : List Piece} {r : List (Option Char)}
    (h : readString (cs.map some) out = some (ps, r)) :
    ∃ body rest, cs = body ++ '"' :: rest ∧ r = rest.map some ∧ IsQuotable body := by
  generalize hs : cs.map some = s at h
  fun_induction readString s out generalizing cs with
  | case1 => cases h
  | case2 s out =>
      obtain ⟨cs, rfl, rfl⟩ := of_map_some hs
      cases h
      exact ⟨[], cs, rfl, rfl, .nil⟩
  | case3 a b c d s out n hn ih =>
      obtain ⟨cs, rfl, h1⟩ := of_map_some hs
      obtain ⟨cs, rfl, h2⟩ := of_map_some h1
      obtain ⟨cs, rfl, h3⟩ := of_map_some h2
      obtain ⟨cs, rfl, h4⟩ := of_map_some h3
      obtain ⟨cs, rfl, h5⟩ := of_map_some h4
      obtain ⟨cs, rfl, hrest⟩ := of_map_some h5
      obtain ⟨body, rest, rfl, hr, hbody⟩ := ih hrest h
      exact ⟨_, rest, rfl, hr, .unit (isHex_of_codeUnit? hn) hbody⟩
  | case4 => cases h
  | case5 e s out _ c hc ih =>
      obtain ⟨cs, rfl, he⟩ := of_map_some hs
      obtain ⟨cs, rfl, hrest⟩ := of_map_some he
      obtain ⟨body, rest, rfl, hr, hbody⟩ := ih hrest h
      exact ⟨_, rest, rfl, hr, .escape (mem_of_escaped? hc) hbody⟩
  | case6 => cases h
  | case7 => cases h
  | case8 => cases h
  | case9 c s out hquote _ _ hslash hlow ih =>
      obtain ⟨cs, rfl, hrest⟩ := of_map_some hs
      obtain ⟨body, rest, rfl, hr, hbody⟩ := ih hrest h
      exact ⟨_, rest, rfl, hr, .plain (Nat.not_lt.mp hlow) hquote hslash hbody⟩
  | case10 =>
      obtain ⟨_, _, -, he, -⟩ := List.map_eq_cons_iff.mp hs
      cases he

/-- At the front of some characters stands what has the property, and the rest is left. -/
def Takes (P : List Char → Prop) (cs : List Char) (r : List (Option Char)) : Prop :=
  ∃ part rest, cs = part ++ rest ∧ r = rest.map some ∧ P part

namespace Literal

theorem afterDigits_map (cs : List Char) :
    afterDigits (cs.map some) = (cs.dropWhile Char.isDigit).map some :=
  List.dropWhile_map ..

theorem digits_map (cs : List Char) :
    digits (cs.map some) = (cs.takeWhile Char.isDigit).map digitValue := by
  rw [digits, List.takeWhile_map, List.filterMap_map]
  exact congrFun List.filterMap_eq_map _

theorem takes_digits {cs : List Char} (h : ¬ (digits (cs.map some)).isEmpty) :
    Takes IsDigits cs (afterDigits (cs.map some)) := by
  refine ⟨cs.takeWhile Char.isDigit, cs.dropWhile Char.isDigit,
    List.takeWhile_append_dropWhile.symm, afterDigits_map cs, ?_, fun c hc => ?_⟩
  · intro hnil
    rw [digits_map, hnil] at h
    exact h rfl
  · exact List.mem_takeWhile_imp hc

theorem takes_whole {cs : List Char} (h : isWholePart (digits (cs.map some))) :
    Takes IsWhole cs (afterDigits (cs.map some)) := by
  have hne : ¬ (digits (cs.map some)).isEmpty := by
    intro hnil
    rw [List.isEmpty_iff.mp hnil] at h
    cases h
  obtain ⟨part, rest, rfl, hr, hpart⟩ := takes_digits hne
  refine ⟨part, rest, rfl, hr, hpart, fun hzero => ?_⟩
  have hprefix : (part ++ rest).takeWhile Char.isDigit = part ++ rest.takeWhile Char.isDigit :=
    List.takeWhile_append_of_pos hpart.2
  rw [digits_map, hprefix, List.map_append] at h
  match part with
  | [c] =>
      cases hzero
      rfl
  | c :: d :: ds =>
      cases hzero
      cases h

theorem takes_fraction {cs : List Char} {ds : List Nat} {r : List (Option Char)}
    (h : readFraction (cs.map some) = some (ds, r)) : Takes IsFraction cs r := by
  generalize hs : cs.map some = s at h
  unfold readFraction at h
  split at h
  · obtain ⟨cs, rfl, rfl⟩ := of_map_some hs
    split at h
    · cases h
    · rename_i hne
      cases h
      obtain ⟨part, rest, rfl, hr, hpart⟩ := takes_digits hne
      exact ⟨'.' :: part, rest, rfl, hr, .inr ⟨part, rfl, hpart⟩⟩
  · cases h
    exact ⟨[], cs, rfl, hs.symm, .inl rfl⟩

theorem takes_sign (cs : List Char) :
    Takes (fun sign => sign = [] ∨ sign = ['+'] ∨ sign = ['-']) cs (readSign (cs.map some)).2 := by
  generalize hs : cs.map some = s
  unfold readSign
  split
  · obtain ⟨cs, rfl, hr⟩ := of_map_some hs
    exact ⟨['-'], cs, rfl, hr.symm, .inr (.inr rfl)⟩
  · obtain ⟨cs, rfl, hr⟩ := of_map_some hs
    exact ⟨['+'], cs, rfl, hr.symm, .inr (.inl rfl)⟩
  · exact ⟨[], cs, rfl, hs.symm, .inl rfl⟩

theorem takes_power {e : Char} (he : e = 'e' ∨ e = 'E') {cs : List Char} {down : Bool}
    {x : Option (Bool × List Nat)} {r : List (Option Char)}
    (h : readPower down (readSign (cs.map some)).2 = some (x, r)) :
    Takes IsExponent (e :: cs) r := by
  obtain ⟨sign, cs, rfl, hsign, hs⟩ := takes_sign cs
  rw [hsign, readPower] at h
  split at h
  · cases h
  · rename_i hne
    cases h
    obtain ⟨part, rest, rfl, hr, hpart⟩ := takes_digits hne
    exact ⟨e :: (sign ++ part), rest, by simp, hr, .inr ⟨e, sign, part, rfl, he, hs, hpart⟩⟩

theorem takes_exponent {cs : List Char} {x : Option (Bool × List Nat)} {r : List (Option Char)}
    (h : readExponent (cs.map some) = some (x, r)) : Takes IsExponent cs r := by
  generalize hs : cs.map some = s at h
  unfold readExponent at h
  split at h
  · obtain ⟨cs, rfl, rfl⟩ := of_map_some hs
    exact takes_power (.inl rfl) h
  · obtain ⟨cs, rfl, rfl⟩ := of_map_some hs
    exact takes_power (.inr rfl) h
  · cases h
    exact ⟨[], cs, rfl, hs.symm, .inl rfl⟩

theorem takes_unsigned {negative : Bool} {cs : List Char} {l : Literal} {r : List (Option Char)}
    (h : readUnsigned negative (cs.map some) = some (l, r)) {sign : List Char}
    (hsign : sign = [] ∨ sign = ['-']) : Takes IsNumber (sign ++ cs) r := by
  unfold readUnsigned at h
  split at h
  · rename_i hwhole
    obtain ⟨whole, cs, rfl, hafter, hw⟩ := takes_whole hwhole
    rw [hafter] at h
    split at h
    · cases h
    · rename_i hfraction
      obtain ⟨fraction, cs, rfl, rfl, hf⟩ := takes_fraction hfraction
      split at h
      · cases h
      · rename_i hexponent
        obtain ⟨exponent, cs, rfl, rfl, he⟩ := takes_exponent hexponent
        cases h
        exact ⟨sign ++ (whole ++ (fraction ++ exponent)), cs, by simp, rfl, sign, whole, fraction,
          exponent, rfl, hsign, hw, hf, he⟩
  · cases h

theorem takes_number {cs : List Char} {l : Literal} {r : List (Option Char)}
    (h : read (cs.map some) = some (l, r)) : Takes IsNumber cs r := by
  generalize hs : cs.map some = s at h
  unfold read at h
  split at h
  · obtain ⟨cs, rfl, rfl⟩ := of_map_some hs
    exact takes_unsigned h (.inr rfl)
  · subst hs
    exact takes_unsigned h (.inl rfl)

end Literal

namespace Token

theorem takes_token {cs : List Char} {t : Token} {r : List (Option Char)}
    (h : read (cs.map some) = some (t, r)) : Takes (Spells t) cs r := by
  generalize hs : cs.map some = s at h
  unfold read at h
  split at h
  case h_7 =>
    obtain ⟨cs, rfl, rfl⟩ := of_map_some hs
    split at h
    · rename_i hstring
      cases h
      obtain ⟨body, rest, rfl, hr, hbody⟩ := readString_sound hstring
      exact ⟨'"' :: body ++ ['"'], rest, by simp, hr, .string hbody⟩
    · cases h
  case h_8 =>
    obtain ⟨cs, rfl, h1⟩ := of_map_some hs
    obtain ⟨cs, rfl, h2⟩ := of_map_some h1
    obtain ⟨cs, rfl, h3⟩ := of_map_some h2
    obtain ⟨cs, rfl, hr⟩ := of_map_some h3
    cases h
    exact ⟨_, cs, rfl, hr.symm, .null⟩
  case h_9 =>
    obtain ⟨cs, rfl, h1⟩ := of_map_some hs
    obtain ⟨cs, rfl, h2⟩ := of_map_some h1
    obtain ⟨cs, rfl, h3⟩ := of_map_some h2
    obtain ⟨cs, rfl, hr⟩ := of_map_some h3
    cases h
    exact ⟨_, cs, rfl, hr.symm, .true⟩
  case h_10 =>
    obtain ⟨cs, rfl, h1⟩ := of_map_some hs
    obtain ⟨cs, rfl, h2⟩ := of_map_some h1
    obtain ⟨cs, rfl, h3⟩ := of_map_some h2
    obtain ⟨cs, rfl, h4⟩ := of_map_some h3
    obtain ⟨cs, rfl, hr⟩ := of_map_some h4
    cases h
    exact ⟨_, cs, rfl, hr.symm, .false⟩
  case h_11 =>
    subst hs
    split at h
    · rename_i hnumber
      cases h
      obtain ⟨part, rest, rfl, hr, hpart⟩ := Literal.takes_number hnumber
      exact ⟨part, rest, rfl, hr, .number hpart⟩
    · cases h
  all_goals
    obtain ⟨cs, rfl, hr⟩ := of_map_some hs
    cases h
    exact ⟨_, cs, rfl, hr.symm, by constructor⟩

theorem takes_space (cs : List Char) : Takes IsSpace cs ((cs.map some).dropWhile isSpace) := by
  refine ⟨cs.takeWhile (isSpace ∘ some), cs.dropWhile (isSpace ∘ some),
    List.takeWhile_append_dropWhile.symm, List.dropWhile_map .., fun c hc => ?_⟩
  have hspace := List.mem_takeWhile_imp hc
  simpa [isSpace, or_assoc] using hspace

theorem scan_sound {cs : List Char} {out ts : List Token} (h : scan (cs.map some) out = some ts) :
    ∃ us, ts = out.reverse ++ us ∧ SpellsAll us cs := by
  induction hn : cs.length using Nat.strongRecOn generalizing cs out with
  | ind n ih =>
      obtain ⟨space, cs, rfl, hdrop, hspace⟩ := takes_space cs
      rw [scan] at h
      split at h
      · rename_i hnil
        rw [hdrop, List.map_eq_nil_iff] at hnil
        subst hnil
        cases h
        rw [List.append_nil]
        exact ⟨[], (List.append_nil _).symm, .nil hspace⟩
      · rename_i c r hcons
        split at h
        · rename_i t rest hread
          have hlt := length_read hread
          rw [← hcons, hdrop] at hread hlt
          obtain ⟨part, cs, rfl, rfl, hpart⟩ := takes_token hread
          rw [List.length_map, List.length_map] at hlt
          rw [List.length_append] at hn
          obtain ⟨us, rfl, hus⟩ := ih cs.length (by omega) h rfl
          refine ⟨t :: us, by simp, ?_⟩
          rw [← List.append_assoc]
          exact .cons hspace hpart hus
        · cases h

end Token

/-! ## What is taken is a value -/

namespace Document

/-- The tokens that close what is open. -/
def Closes : List Frame → List Token → Prop
  | [], ts => ts = []
  | .array _ :: stack, ts =>
    ∃ (vs : List (List Token)) (rest : List Token),
      ts = vs.flatMap (.comma :: ·) ++ .closeArray :: rest ∧ (∀ v ∈ vs, IsValue v) ∧
        Closes stack rest
  | .object _ _ :: stack, ts =>
    ∃ (fs : List (Option String × List Token)) (rest : List Token),
      ts = fs.flatMap (fun f => .comma :: .string f.1 :: .colon :: f.2) ++ .closeObject :: rest ∧
        (∀ f ∈ fs, IsValue f.2) ∧ Closes stack rest

/-- A value, and then what closes the rest. -/
def ClosesValue (stack : List Frame) (ts : List Token) : Prop :=
  ∃ v rest, ts = v ++ rest ∧ IsValue v ∧ Closes stack rest

/-- The tokens that may still come. -/
def Completes : Expecting → List Frame → List Token → Prop
  | .value, stack, ts => ClosesValue stack ts
  | .item, stack, ts =>
    (∃ rest, ts = .closeArray :: rest ∧ Closes stack rest) ∨ ClosesValue (.array [] :: stack) ts
  | .afterItem items, stack, ts => Closes (.array items :: stack) ts
  | .name, stack, ts =>
    (∃ rest, ts = .closeObject :: rest ∧ Closes stack rest) ∨
      ∃ s rest, ts = .string s :: .colon :: rest ∧ ClosesValue (.object [] s :: stack) rest
  | .nextName fields, stack, ts =>
    ∃ s rest, ts = .string s :: .colon :: rest ∧ ClosesValue (.object fields s :: stack) rest
  | .colon fields key, stack, ts =>
    ∃ rest, ts = .colon :: rest ∧ ClosesValue (.object fields key :: stack) rest
  | .afterField fields, stack, ts => Closes (.object fields none :: stack) ts
  | .nothing _, _, ts => ts = []

theorem closes_of_close {d : Document} {e : Expecting} {stack stack' : List Frame}
    {ts : List Token} (h : some (close d stack) = some (e, stack')) (hts : Completes e stack' ts) :
    Closes stack ts := by
  cases stack with
  | nil =>
      cases h
      exact hts
  | cons frame stack => cases frame <;> cases h <;> exact hts

theorem closesValue_of_takeValue {t : Token} {stack stack' : List Frame} {e : Expecting}
    {ts : List Token} (h : takeValue t stack = some (e, stack')) (hts : Completes e stack' ts) :
    ClosesValue stack (t :: ts) := by
  unfold takeValue at h
  split at h
  · exact ⟨[.null], ts, rfl, .null, closes_of_close h hts⟩
  · exact ⟨[.bool _], ts, rfl, .bool, closes_of_close h hts⟩
  · exact ⟨[.number _], ts, rfl, .number, closes_of_close h hts⟩
  · exact ⟨[.string _], ts, rfl, .string, closes_of_close h hts⟩
  · cases h
    rcases hts with ⟨rest, rfl, hrest⟩ | ⟨v, _, rfl, hv, vs, rest, rfl, hvs, hrest⟩
    · exact ⟨[.openArray, .closeArray], rest, rfl, .emptyArray, hrest⟩
    · exact ⟨_, rest, by simp, .array hv hvs, hrest⟩
  · cases h
    rcases hts with ⟨rest, rfl, hrest⟩ | ⟨s, _, rfl, v, _, rfl, hv, fs, rest, rfl, hfs, hrest⟩
    · exact ⟨[.openObject, .closeObject], rest, rfl, .emptyObject, hrest⟩
    · exact ⟨_, rest, by simp, .object (s := s) hv hfs, hrest⟩
  · cases h

theorem completes_of_take {e e' : Expecting} {stack stack' : List Frame} {t : Token}
    {ts : List Token} (h : take e stack t = some (e', stack')) (hts : Completes e' stack' ts) :
    Completes e stack (t :: ts) := by
  unfold take at h
  split at h
  · exact closesValue_of_takeValue h hts
  · exact .inl ⟨ts, rfl, closes_of_close h hts⟩
  · exact .inr (closesValue_of_takeValue h hts)
  · cases h
    obtain ⟨v, _, rfl, hv, vs, rest, rfl, hvs, hrest⟩ := hts
    refine ⟨v :: vs, rest, by simp, ?_, hrest⟩
    rintro w (_ | ⟨_, hw⟩)
    · exact hv
    · exact hvs w hw
  · exact ⟨[], ts, rfl, nofun, closes_of_close h hts⟩
  · exact .inl ⟨ts, rfl, closes_of_close h hts⟩
  · cases h
    obtain ⟨rest, rfl, hrest⟩ := hts
    exact .inr ⟨_, rest, rfl, hrest⟩
  · cases h
    obtain ⟨rest, rfl, hrest⟩ := hts
    exact ⟨_, rest, rfl, hrest⟩
  · cases h
    exact ⟨ts, rfl, hts⟩
  · cases h
    obtain ⟨s, _, rfl, v, _, rfl, hv, fs, rest, rfl, hfs, hrest⟩ := hts
    refine ⟨(s, v) :: fs, rest, by simp, ?_, hrest⟩
    rintro f (_ | ⟨_, hf⟩)
    · exact hv
    · exact hfs f hf
  · exact ⟨[], ts, rfl, nofun, closes_of_close h hts⟩
  · cases h

theorem completes_of_takeAll {e : Expecting} {stack : List Frame} {ts : List Token} {d : Document}
    (h : takeAll e stack ts = some d) : Completes e stack ts := by
  induction ts generalizing e stack with
  | nil =>
      unfold takeAll at h
      split at h
      · rfl
      · cases h
  | cons t ts ih =>
      rw [takeAll] at h
      split at h
      · rename_i htake
        exact completes_of_take htake (ih h)
      · cases h

/-- What is understood as a document is a JSON text. -/
theorem isText_of_ofText? {s : String} {d : Document} (h : ofText? s = some d) :
    IsText s.toList := by
  obtain ⟨ts, hts, hd⟩ := Option.bind_eq_some_iff.mp h
  obtain ⟨us, rfl, hspells⟩ := Token.scan_sound hts
  obtain ⟨v, rest, hv, hvalue, rfl⟩ := completes_of_takeAll hd
  rw [List.append_nil] at hv
  exact ⟨_, hspells, hv ▸ hvalue⟩

end Document

/-! ## How texts begin -/

theorem Spells.begins {t : Token} {cs : List Char} (h : Spells t cs) :
    ∃ c rest, cs = c :: rest ∧ c.toNat < 0x7f := by
  cases h with
  | number h =>
      obtain ⟨sign, whole, fraction, exponent, rfl, hsign, ⟨⟨hne, hdigits⟩, -⟩, -⟩ := h
      rcases hsign with rfl | rfl
      · obtain ⟨c, whole, rfl⟩ := List.exists_cons_of_ne_nil hne
        have hc := hdigits c List.mem_cons_self
        rw [Char.isDigit_iff_toNat] at hc
        exact ⟨c, _, rfl, Nat.lt_of_le_of_lt hc.2 (by decide)⟩
      · exact ⟨_, _, rfl, by decide⟩
  | _ => exact ⟨_, _, rfl, by decide⟩

/-- A JSON text begins with white space or with an ASCII character. -/
theorem IsText.begins {cs : List Char} (h : IsText cs) :
    ∃ c rest, cs = c :: rest ∧ c.toNat < 0x7f := by
  obtain ⟨ts, hts, hvalue⟩ := h
  cases hts with
  | nil => cases hvalue
  | @cons t ts space part rest hspace ht _ =>
      cases space with
      | nil =>
          obtain ⟨c, part, rfl, hc⟩ := ht.begins
          exact ⟨c, _, rfl, hc⟩
      | cons c space =>
          have hc := hspace c List.mem_cons_self
          refine ⟨c, _, rfl, ?_⟩
          rcases hc with rfl | rfl | rfl | rfl <;> decide

theorem not_isText_cons {c : Char} (h : 0x7f ≤ c.toNat) (cs : List Char) : ¬ IsText (c :: cs) := by
  intro htext
  obtain ⟨d, rest, he, hd⟩ := htext.begins
  cases he
  exact Nat.not_le.mpr hd h

end ChatAgent.Json

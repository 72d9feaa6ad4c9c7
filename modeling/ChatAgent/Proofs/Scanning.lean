import ChatAgent.Proofs.Numeral

/-!
# What is found in a text

What is read from a text is a token in front of a rest that does not go on with it
(`Token.takes_of_read`), and any such token is read (`Token.Takes.read`). So the tokens of a text
are what it can be cut into, white space apart (`Token.ofText_eq_ok`).
-/

namespace ChatAgent.Calculator.Token

/-- The characters of operators, parentheses and the comma. -/
def symbol? : Token → Option (List Char)
  | plus => some ['+']
  | minus => some ['-']
  | star => some ['*']
  | slash => some ['/']
  | doubleSlash => some ['/', '/']
  | percent => some ['%']
  | doubleStar => some ['*', '*']
  | openParen => some ['(']
  | closeParen => some [')']
  | comma => some [',']
  | number _ | name _ => none

/-! ## Characters -/

theorem isBlank_range {c : Char} (h : Text.isBlank c) : c.toNat ≤ 0x20 ∨ 0x85 ≤ c.toNat := by
  simp only [Text.isBlank, Bool.or_eq_true, Bool.and_eq_true, decide_eq_true_eq, beq_iff_eq] at h
  omega

theorem isBlank_of_isDigit {c : Char} (h : c.isDigit) : Text.isBlank c = false := by
  rw [Bool.eq_false_iff]
  intro hc
  have hdigit : 48 ≤ c.toNat ∧ c.toNat ≤ 57 := Char.isDigit_iff_toNat.mp h
  have hrange := isBlank_range hc
  omega

theorem isBlank_of_inNumber {c : Char} (h : inNumber c) : Text.isBlank c = false := by
  rcases h with hdigit | rfl | rfl | rfl
  · exact isBlank_of_isDigit hdigit
  all_goals decide

theorem beginsName_range {c : Char} (h : beginsName c) : 0x41 ≤ c.toNat ∧ c.toNat ≤ 0x7a := by
  simp only [beginsName, Bool.or_eq_true, beq_iff_eq] at h
  rcases h with halpha | rfl
  · have hcase : c.isUpper ∨ c.isLower := (Bool.or_eq_true _ _).mp halpha
    rcases hcase with hupper | hlower
    · have hrange : 'A'.val ≤ c.val ∧ c.val ≤ 'Z'.val := of_decide_eq_true hupper
      have hfirst : 0x41 ≤ c.toNat := UInt32.le_iff_toNat_le.mp hrange.1
      have hlast : c.toNat ≤ 0x5a := UInt32.le_iff_toNat_le.mp hrange.2
      omega
    · have hrange := (Bool.and_eq_true _ _).mp hlower
      have hfirst : 0x61 ≤ c.toNat := UInt32.le_iff_toNat_le.mp (of_decide_eq_true hrange.1)
      have hlast : c.toNat ≤ 0x7a := UInt32.le_iff_toNat_le.mp (of_decide_eq_true hrange.2)
      omega
  · decide

theorem inName_iff {c : Char} : inName c ↔ beginsName c ∨ c.isDigit := by
  simp only [inName, beginsName, Char.isAlphanum, Bool.or_eq_true]
  exact or_right_comm

theorem isBlank_of_inName {c : Char} (h : inName c) : Text.isBlank c = false := by
  rcases inName_iff.mp h with hbegins | hdigit
  · rw [Bool.eq_false_iff]
    intro hc
    have hname := beginsName_range hbegins
    have hrange := isBlank_range hc
    omega
  · exact isBlank_of_isDigit hdigit

/-! ## One token -/

/-- The characters are read as the token in front of such a rest, which does not go on with it. -/
inductive Takes : Token → List Char → List Char → Prop
  | number {n : Numeral} {v : Number} {r : List Char} (proper : n.Proper)
      (first : ∃ c ∈ n.chars.head?, c.isDigit ∨ c = '.') (value : n.value = .ok v)
      (stops : n.Stops r) : Takes (.number v) n.chars r
  | name {c : Char} {cs r : List Char} (first : beginsName c) (rest : ∀ d ∈ cs, inName d)
      (stops : ∀ d ∈ r.head?, ¬ inName d) : Takes (.name (String.ofList (c :: cs))) (c :: cs) r
  | symbol {t : Token} {s r : List Char} (h : t.symbol? = some s)
      (star : t = .star → r.head? ≠ some '*') (slash : t = .slash → r.head? ≠ some '/') :
      Takes t s r

theorem read_symbol {t : Token} {c : Char} {s r : List Char} (h : t.symbol? = some (c :: s))
    (hstar : t = .star → r.head? ≠ some '*') (hslash : t = .slash → r.head? ≠ some '/') :
    Text.isBlank c = false ∧ read c (s ++ r) = .ok (t, r) := by
  cases t with
  | number | name => cases h
  | star =>
      cases h
      refine ⟨rfl, ?_⟩
      cases r with
      | nil => rfl
      | cons c r =>
          have hc : c ≠ '*' := by simpa using hstar rfl
          simp [Token.read, readOperator, beginsName, hc]
  | slash =>
      cases h
      refine ⟨rfl, ?_⟩
      cases r with
      | nil => rfl
      | cons c r =>
          have hc : c ≠ '/' := by simpa using hslash rfl
          simp [Token.read, readOperator, beginsName, hc]
  | _ =>
      cases h
      exact ⟨rfl, rfl⟩

theorem Takes.read {t : Token} {text r : List Char} (h : Takes t text r) :
    ∃ c cs, text = c :: cs ∧ Text.isBlank c = false ∧ Token.read c (cs ++ r) = .ok (t, r) := by
  cases h with
  | @number n v _ proper first value stops =>
      obtain ⟨c, hc, hfirst⟩ := first
      obtain ⟨cs, hcs⟩ := List.head?_eq_some_iff.mp hc
      have hread := Numeral.read_of_stops proper stops
      rw [hcs, List.cons_append] at hread
      refine ⟨c, cs, hcs, ?_, ?_⟩
      · rcases hfirst with hdigit | rfl
        · exact isBlank_of_isDigit hdigit
        · decide
      · rw [Token.read, if_pos hfirst, hread, value]
  | @name c cs _ first rest stops =>
      have hnumber : ¬ (c.isDigit ∨ c = '.') := by
        have hname := beginsName_range first
        rintro (hdigit | rfl)
        · have hrange : 48 ≤ c.toNat ∧ c.toNat ≤ 57 := Char.isDigit_iff_toNat.mp hdigit
          omega
        · exact absurd first (by decide)
      refine ⟨c, cs, rfl, isBlank_of_inName (inName_iff.mpr (.inl first)), ?_⟩
      rw [Token.read, if_neg hnumber, if_pos first, Numeral.takeWhile_front rest stops,
        Numeral.dropWhile_front rest stops]
  | symbol hsymbol star slash =>
      cases text with
      | nil => cases t <;> cases hsymbol
      | cons c s =>
          obtain ⟨hc, hread⟩ := read_symbol hsymbol star slash
          exact ⟨c, s, rfl, hc, hread⟩

theorem takes_of_readOperator {t : Token} {cs r : List Char} (h : readOperator cs = some (t, r)) :
    ∃ text, cs = text ++ r ∧ Takes t text r := by
  unfold readOperator at h
  split at h
  case h_5 hstar =>
    cases h
    refine ⟨['*'], rfl, .symbol rfl (fun _ hhead => ?_) nofun⟩
    obtain ⟨s, rfl⟩ := List.head?_eq_some_iff.mp hhead
    exact hstar s rfl
  case h_6 hslash =>
    cases h
    refine ⟨['/'], rfl, .symbol rfl nofun fun _ hhead => ?_⟩
    obtain ⟨s, rfl⟩ := List.head?_eq_some_iff.mp hhead
    exact hslash s rfl
  case h_11 => cases h
  all_goals
    cases h
    exact ⟨_, rfl, .symbol rfl nofun nofun⟩

/-- What is read is a token in front of the rest. -/
theorem takes_of_read {c : Char} {cs r : List Char} {t : Token} (h : read c cs = .ok (t, r)) :
    ∃ text, c :: cs = text ++ r ∧ Takes t text r := by
  unfold Token.read at h
  split at h
  · rename_i hc
    split at h
    · rename_i v hvalue
      cases h
      have hchars := Numeral.chars_read (c :: cs)
      refine ⟨_, hchars.symm,
        .number (Numeral.read_proper _) ⟨c, ?_, hc⟩ hvalue (Numeral.read_stops _)⟩
      have hshorter : (Numeral.read (c :: cs)).2.length < (c :: cs).length :=
        Numeral.length_read hc
      -- A numeral takes at least the digit or the point it begins with.
      have hne : (Numeral.read (c :: cs)).1.chars ≠ [] := by
        intro hempty
        rw [hempty, List.nil_append] at hchars
        rw [hchars] at hshorter
        exact Nat.lt_irrefl _ hshorter
      obtain ⟨d, ds, hds⟩ := List.exists_cons_of_ne_nil hne
      rw [hds] at hchars ⊢
      exact congrArg some (List.cons.inj hchars).1
    · cases h
  · split at h
    · rename_i hname
      cases h
      refine ⟨c :: cs.takeWhile inName, ?_, .name hname ?_ (Numeral.head_dropWhile cs)⟩
      · rw [List.cons_append, List.takeWhile_append_dropWhile]
      · exact fun d hd => List.all_eq_true.mp List.all_takeWhile d hd
    · split at h
      · rename_i ho
        cases h
        exact takes_of_readOperator ho
      · cases h

theorem scan_read {c : Char} {cs r : List Char} {t : Token} (hc : Text.isBlank c = false)
    (h : read c cs = .ok (t, r)) (out : List Token) : scan (c :: cs) out = scan r (t :: out) := by
  rw [scan, if_neg (by simp [hc])]
  split
  · rename_i hread
    cases h.symm.trans hread
    rfl
  · rename_i hread
    cases h.symm.trans hread

theorem scan_error {c : Char} {cs : List Char} {e : Fault} (hc : Text.isBlank c = false)
    (h : read c cs = .error e) (out : List Token) : scan (c :: cs) out = .error e := by
  rw [scan, if_neg (by simp [hc])]
  split
  · rename_i hread
    cases h.symm.trans hread
  · rename_i hread
    cases h.symm.trans hread
    rfl

theorem Takes.scan {t : Token} {text r : List Char} (h : Takes t text r) (out : List Token) :
    scan (text ++ r) out = scan r (t :: out) := by
  obtain ⟨c, cs, rfl, hc, hread⟩ := h.read
  exact scan_read hc hread out

theorem takes_numeral {n : Numeral} {v : Number} (hn : n.Proper) (hwhole : n.whole ≠ [])
    (hvalue : n.value = .ok v) {r : List Char} (hr : ∀ c ∈ r.head?, ¬ inNumber c) :
    Takes (.number v) n.chars r := by
  obtain ⟨d, ds, hds⟩ := List.exists_cons_of_ne_nil hwhole
  have hd : d.isDigit := hn.whole d (hds ▸ List.mem_cons_self)
  have hfirst : d ∈ n.chars.head? := by
    rw [Numeral.chars_eq, hds]
    rfl
  exact .number hn ⟨d, hfirst, .inl hd⟩ hvalue (.of_head hr)

theorem takes_natural {n : Nat} (h : n ≤ int64Max) {r : List Char}
    (hr : ∀ c ∈ r.head?, ¬ inNumber c) : Takes (.number (.int n)) (Nat.toDigits 10 n) r := by
  have hdigits : ∀ c ∈ Nat.toDigits 10 n, c.isDigit := fun c hc =>
    Nat.isDigit_of_mem_toDigits (by decide) (by decide) hc
  have hproper : (⟨Nat.toDigits 10 n, none, none⟩ : Numeral).Proper := ⟨hdigits, nofun, nofun⟩
  have hvalue : (⟨Nat.toDigits 10 n, none, none⟩ : Numeral).value = .ok (.int n) := by
    simp only [Numeral.value, Numeral.natOf_eq, Nat.ofDigitChars_ten_toDigits]
    exact if_pos h
  have htakes := takes_numeral hproper Nat.toDigits_ne_nil hvalue hr
  rwa [Numeral.chars, List.append_nil, List.append_nil] at htakes

/-! ## A whole text -/

/-- The text is cut into the tokens, and is white space where none of them is. -/
inductive Cut : List Char → List Token → Prop
  | nil : Cut [] []
  | blank {c : Char} {cs : List Char} {ts : List Token} (h : Text.isBlank c) (rest : Cut cs ts) :
      Cut (c :: cs) ts
  | token {t : Token} {text r : List Char} {ts : List Token} (h : Takes t text r)
      (rest : Cut r ts) : Cut (text ++ r) (t :: ts)

theorem Cut.scan {cs : List Char} {ts : List Token} (h : Cut cs ts) (out : List Token) :
    scan cs out = .ok (out.reverse ++ ts) := by
  induction h generalizing out with
  | nil => rw [Token.scan, List.append_nil]
  | blank h _ ih => rw [Token.scan, if_pos h, ih]
  | token h _ ih =>
      rw [h.scan, ih]
      simp

theorem exists_cut {cs : List Char} {out ts : List Token} (h : scan cs out = .ok ts) :
    ∃ us, ts = out.reverse ++ us ∧ Cut cs us := by
  fun_induction scan cs out with
  | case1 out =>
      cases h
      exact ⟨[], (List.append_nil _).symm, .nil⟩
  | case2 c cs out hc ih =>
      obtain ⟨us, hus, hcut⟩ := ih h
      exact ⟨us, hus, .blank hc hcut⟩
  | case3 c cs out hc t r hread ih =>
      obtain ⟨us, hus, hcut⟩ := ih h
      obtain ⟨text, htext, htakes⟩ := takes_of_read hread
      refine ⟨t :: us, by simpa using hus, ?_⟩
      rw [htext]
      exact .token htakes hcut
  | case4 => cases h

/-- The tokens of a text are what it is cut into; it is not cut into none at all. -/
theorem ofText_eq_ok {s : String} {ts : List Token} :
    ofText s = .ok ts ↔ ts ≠ [] ∧ Cut s.toList ts := by
  constructor
  · intro h
    unfold ofText at h
    split at h
    · cases h
    · rename_i us hne hscan
      cases h
      obtain ⟨us, rfl, hcut⟩ := exists_cut hscan
      exact ⟨hne, hcut⟩
    · cases h
  · rintro ⟨hne, hcut⟩
    rw [ofText, hcut.scan, List.reverse_nil, List.nil_append]
    cases ts with
    | nil => exact absurd rfl hne
    | cons => rfl

end ChatAgent.Calculator.Token

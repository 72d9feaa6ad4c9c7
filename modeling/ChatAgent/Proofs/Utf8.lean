import ChatAgent.Text.Utf8
import Mathlib.Algebra.Group.Nat.Defs

/-!
# UTF-8 there and back

Decoding undoes encoding (`decode_encode`), and no character but the newline has the byte of the
newline in its encoding. Nor does damage reach over a newline: it does not matter whether bytes are
cut behind it before they are decoded or after (`lossy_append_newline`). Bytes are in the order of
the texts that they encode (`bytes_lt`).
-/

namespace ChatAgent.Text

theorem toNat_byte {n : Nat} (h : n < 256) : (UInt8.ofNat n).toNat = n :=
  UInt8.toNat_ofNat_of_lt' h

namespace Utf8

/-- A continuation byte within the range, with more to come. -/
theorem decodeFrom_later {bits later low high t : Nat} {out : List (Option Char)} {bs : List UInt8}
    (ht : t < 64) (hlow : low ≤ t + 128) (hhigh : t + 128 ≤ high) :
    decodeFrom (.more bits (later + 1) low high) out (UInt8.ofNat (t + 128) :: bs) =
      decodeFrom (.more (bits * 64 + t) later 0x80 0xbf) out bs := by
  have hb : (UInt8.ofNat (t + 128)).toNat = t + 128 := toNat_byte (by omega)
  simp only [decodeFrom, step, hb, if_pos (And.intro hlow hhigh), Nat.add_sub_cancel]
  rfl

/-- The last byte of a character. -/
theorem decodeFrom_last {bits low high t : Nat} {out : List (Option Char)} {bs : List UInt8}
    (ht : t < 64) (hlow : low ≤ t + 128) (hhigh : t + 128 ≤ high) :
    decodeFrom (.more bits 0 low high) out (UInt8.ofNat (t + 128) :: bs) =
      decodeFrom .none (some (Char.ofNat (bits * 64 + t)) :: out) bs := by
  have hb : (UInt8.ofNat (t + 128)).toNat = t + 128 := toNat_byte (by omega)
  simp only [decodeFrom, step, hb, if_pos (And.intro hlow hhigh), Nat.add_sub_cancel]
  rfl

theorem decodeFrom_first {n : Nat} {out : List (Option Char)} {bs : List UInt8} (hn : n < 256) :
    decodeFrom .none out (UInt8.ofNat n :: bs) =
      decodeFrom (first n).2 ((first n).1.reverse ++ out) bs := by
  simp only [decodeFrom, step, toNat_byte hn]

theorem decodeFrom_char (c : Char) (out : List (Option Char)) (bs : List UInt8) :
    decodeFrom .none out (String.utf8EncodeChar c ++ bs) = decodeFrom .none (some c :: out) bs := by
  have hc : Char.ofNat c.val.toNat = c := Char.ofNat_toNat c
  have hvalid := c.valid
  simp only [UInt32.isValidChar, Nat.isValidChar] at hvalid
  generalize hv : c.val.toNat = v at hc hvalid
  simp only [String.utf8EncodeChar, hv]
  split
  · rw [List.singleton_append, decodeFrom_first (by omega), first, if_pos (by omega), hc]
    rfl
  · split
    · have hfirst : first (v / 64 % 32 + 192) = ([], .more (v / 64) 0 0x80 0xbf) := by
        have hlead : v / 64 % 32 + 192 - 0xc0 = v / 64 := by omega
        rw [first, if_neg (by omega), if_neg (by omega), if_pos (by omega), hlead]
      have hbits : v / 64 * 64 + v % 64 = v := by omega
      rw [List.cons_append, decodeFrom_first (by omega), hfirst, List.singleton_append,
        decodeFrom_last (by omega) (by omega) (by omega), hbits, hc]
      rfl
    · split
      · have hfirst : first (v / 4096 % 16 + 224) =
            ([], .more (v / 4096) 1 (if v / 4096 = 0 then 0xa0 else 0x80)
              (if v / 4096 = 13 then 0x9f else 0xbf)) := by
          rw [first, if_neg (by omega), if_neg (by omega), if_neg (by omega), if_pos (by omega)]
          have hlead : v / 4096 % 16 + 224 = v / 4096 + 224 := by omega
          simp [hlead]
        have hbits : (v / 4096 * 64 + v / 64 % 64) * 64 + v % 64 = v := by omega
        rw [List.cons_append, decodeFrom_first (by omega), hfirst, List.cons_append,
          decodeFrom_later (by omega) (by split <;> omega) (by split <;> omega),
          List.singleton_append, decodeFrom_last (by omega) (by omega) (by omega), hbits, hc]
        rfl
      · have hfirst : first (v / 262144 % 8 + 240) =
            ([], .more (v / 262144) 2 (if v / 262144 = 0 then 0x90 else 0x80)
              (if v / 262144 = 4 then 0x8f else 0xbf)) := by
          rw [first, if_neg (by omega), if_neg (by omega), if_neg (by omega), if_neg (by omega),
            if_pos (by omega)]
          have hlead : v / 262144 % 8 + 240 = v / 262144 + 240 := by omega
          simp [hlead]
        have hbits :
            ((v / 262144 * 64 + v / 4096 % 64) * 64 + v / 64 % 64) * 64 + v % 64 = v := by
          omega
        rw [List.cons_append, decodeFrom_first (by omega), hfirst, List.cons_append,
          decodeFrom_later (by omega) (by split <;> omega) (by split <;> omega), List.cons_append,
          decodeFrom_later (by omega) (by omega) (by omega), List.singleton_append,
          decodeFrom_last (by omega) (by omega) (by omega), hbits, hc]
        rfl

theorem decodeFrom_encode (cs : List Char) (out : List (Option Char)) :
    decodeFrom .none out (encode cs) = out.reverse ++ cs.map some := by
  induction cs generalizing out with
  | nil => simp [encode, decodeFrom, finish]
  | cons c cs ih =>
      rw [encode, List.flatMap_cons, decodeFrom_char, ← encode, ih]
      simp

end Utf8

@[simp] theorem decode_encode (cs : List Char) : decode (encode cs) = cs.map some :=
  Utf8.decodeFrom_encode cs []

@[simp] theorem lossy_bytes (s : String) : lossy (bytes s) = s := by
  simp [lossy, bytes, Function.comp_def]

@[simp] theorem encode_append (cs ds : List Char) : encode (cs ++ ds) = encode cs ++ encode ds :=
  List.flatMap_append

theorem length_le_flatMap {α β : Type} {f : α → List β} (h : ∀ x, f x ≠ []) (xs : List α) :
    xs.length ≤ (xs.flatMap f).length := by
  induction xs with
  | nil => exact Nat.le_refl 0
  | cons x xs ih =>
      have hx := List.length_pos_iff.mpr (h x)
      rw [List.flatMap_cons, List.length_append, List.length_cons]
      omega

/-- A text has no more characters than bytes. -/
theorem length_le_bytes (s : String) : s.toList.length ≤ (bytes s).length :=
  length_le_flatMap (fun _ => String.utf8EncodeChar_ne_nil) s.toList

/-- Only the newline has its byte. -/
theorem newline_mem_encodeChar {c : Char} (h : (10 : UInt8) ∈ String.utf8EncodeChar c) :
    c = '\n' := by
  have hbyte {n : Nat} (hn : n < 256) (he : (10 : UInt8) = UInt8.ofNat n) : n = 10 := by
    have hnat := congrArg UInt8.toNat he
    rw [toNat_byte hn] at hnat
    exact hnat.symm
  have hchar (hv : c.val.toNat = 10) : c = '\n' := Char.ext (UInt32.toNat_inj.mp hv)
  simp only [String.utf8EncodeChar] at h
  split at h
  · exact hchar (hbyte (by omega) (List.mem_singleton.mp h))
  · -- Every byte of a longer encoding is 128 or more.
    split at h
    · simp only [List.mem_cons, List.not_mem_nil, or_false] at h
      rcases h with h | h <;> have := hbyte (by omega) h <;> omega
    · split at h
      · simp only [List.mem_cons, List.not_mem_nil, or_false] at h
        rcases h with h | h | h <;> have := hbyte (by omega) h <;> omega
      · simp only [List.mem_cons, List.not_mem_nil, or_false] at h
        rcases h with h | h | h | h <;> have := hbyte (by omega) h <;> omega

theorem newline_not_mem_bytes {s : String} (h : '\n' ∉ s.toList) : (10 : UInt8) ∉ bytes s := by
  intro hm
  obtain ⟨c, hc, hb⟩ := List.mem_flatMap.mp hm
  exact h (newline_mem_encodeChar hb ▸ hc)

/-! ## Decoding line by line -/

namespace Utf8

/-- The character that has begun goes on with a byte beyond ASCII and will not be a newline. -/
def Pending.Sound : Pending → Prop
  | .none => True
  | .more bits _ low _ => 128 ≤ low ∧ 10 < bits * 64 + (low - 128)

theorem ofNat_ne_newline {n : Nat} (h : n ≠ 10) : Char.ofNat n ≠ '\n' := by
  intro he
  by_cases hn : n.isValidChar
  · rw [Char.ofNat, dif_pos hn] at he
    exact h (congrArg Char.toNat he)
  · rw [Char.ofNat, dif_neg hn] at he
    exact absurd he (by decide)

theorem first_sound {b : Nat} (hb : b ≠ 10) : some '\n' ∉ (first b).1 ∧ (first b).2.Sound := by
  unfold first
  split
  · simpa [Pending.Sound] using (ofNat_ne_newline hb).symm
  · split
    · simp [Pending.Sound]
    · split
      · simp [Pending.Sound]
        omega
      · split
        · simp only [List.not_mem_nil, not_false_eq_true, true_and, Pending.Sound]
          split <;> omega
        · split
          · simp only [List.not_mem_nil, not_false_eq_true, true_and, Pending.Sound]
            split <;> omega
          · simp [Pending.Sound]

/-- What yields no character yet has begun one. -/
theorem first_yields (b : Nat) : (first b).1 ≠ [] ∨ (first b).2 ≠ .none := by
  unfold first
  split
  · simp
  · split
    · simp
    · split
      · simp
      · split
        · simp
        · split <;> simp

theorem step_yields (p : Pending) (b : UInt8) : (step p b).1 ≠ [] ∨ (step p b).2 ≠ .none := by
  cases p with
  | none => exact first_yields b.toNat
  | more bits later low high =>
      simp only [step]
      split
      · cases later <;> simp
      · simp

/-- Only the byte of the newline yields a newline. -/
theorem step_sound {p : Pending} (hp : p.Sound) {b : UInt8} (hb : b ≠ 10) :
    some '\n' ∉ (step p b).1 ∧ (step p b).2.Sound := by
  have hne : b.toNat ≠ 10 := fun he => hb (UInt8.toNat_inj.mp he)
  cases p with
  | none => exact first_sound hne
  | more bits later low high =>
      obtain ⟨hlow, hbits⟩ := hp
      simp only [step]
      split
      · cases later with
        | zero =>
            refine ⟨?_, trivial⟩
            simp only [List.mem_singleton, Option.some.injEq]
            exact (ofNat_ne_newline (by omega)).symm
        | succ later =>
            have hmore : 10 < (bits * 64 + (b.toNat - 128)) * 64 + (128 - 128) := by omega
            exact ⟨by simp, Nat.le_refl _, hmore⟩
      · obtain ⟨hfirst, hsound⟩ := first_sound hne
        exact ⟨by simpa using hfirst, hsound⟩

/-- A newline ends whatever has begun. -/
theorem step_newline {p : Pending} (hp : p.Sound) :
    step p 10 = (finish p ++ [some '\n'], .none) := by
  cases p with
  | none => rfl
  | more bits later low high =>
      have hlow : ¬ (low ≤ 10 ∧ 10 ≤ high) := fun h =>
        absurd (Nat.le_trans hp.1 h.1) (by decide)
      simp [step, hlow, first, finish]

theorem decodeFrom_eq (p : Pending) (out : List (Option Char)) (bs : List UInt8) :
    decodeFrom p out bs = out.reverse ++ decodeFrom p [] bs := by
  induction bs generalizing p out with
  | nil => simp [decodeFrom]
  | cons b bs ih =>
      simp only [decodeFrom]
      rw [ih, ih _ (_ ++ [])]
      simp

theorem decodeFrom_cons (p : Pending) (b : UInt8) (bs : List UInt8) :
    decodeFrom p [] (b :: bs) = (step p b).1 ++ decodeFrom (step p b).2 [] bs := by
  simp only [decodeFrom]
  rw [decodeFrom_eq]
  simp

theorem decodeFrom_newline {p : Pending} (hp : p.Sound) {as : List UInt8} (has : 10 ∉ as)
    (bs : List UInt8) :
    decodeFrom p [] (as ++ 10 :: bs) =
      decodeFrom p [] as ++ some '\n' :: decodeFrom .none [] bs := by
  induction as generalizing p with
  | nil =>
      rw [List.nil_append, decodeFrom_cons, step_newline hp]
      cases p <;> rfl
  | cons a as ih =>
      rw [List.mem_cons, not_or] at has
      rw [List.cons_append, decodeFrom_cons, decodeFrom_cons,
        ih (step_sound hp (Ne.symm has.1)).2 has.2, List.append_assoc]

theorem newline_not_mem_decodeFrom {p : Pending} (hp : p.Sound) {bs : List UInt8} (hbs : 10 ∉ bs) :
    some '\n' ∉ decodeFrom p [] bs := by
  induction bs generalizing p with
  | nil => cases p <;> simp [decodeFrom, finish]
  | cons b bs ih =>
      rw [List.mem_cons, not_or] at hbs
      obtain ⟨hnow, hnext⟩ := step_sound hp (Ne.symm hbs.1)
      rw [decodeFrom_cons, List.mem_append, not_or]
      exact ⟨hnow, ih hnext hbs.2⟩

theorem decodeFrom_ne_nil {p : Pending} {bs : List UInt8} (h : p ≠ .none ∨ bs ≠ []) :
    decodeFrom p [] bs ≠ [] := by
  induction bs generalizing p with
  | nil =>
      cases p with
      | none => simp at h
      | more => simp [decodeFrom, finish]
  | cons b bs ih =>
      rw [decodeFrom_cons]
      rcases step_yields p b with hnow | hnext
      · simp [hnow]
      · simp [ih (.inl hnext)]

end Utf8

theorem lossy_append_newline {as : List UInt8} (h : 10 ∉ as) (bs : List UInt8) :
    (lossy (as ++ 10 :: bs)).toList = (lossy as).toList ++ '\n' :: (lossy bs).toList := by
  have hdecode : decode (as ++ 10 :: bs) = decode as ++ some '\n' :: decode bs :=
    Utf8.decodeFrom_newline (p := .none) trivial h bs
  simp [lossy, hdecode]

theorem newline_not_mem_lossy {bs : List UInt8} (h : 10 ∉ bs) : '\n' ∉ (lossy bs).toList := by
  have hdecode : some '\n' ∉ decode bs := Utf8.newline_not_mem_decodeFrom (p := .none) trivial h
  rw [lossy, String.toList_ofList, List.mem_map]
  rintro ⟨c, hc, hn⟩
  cases c with
  | none => exact absurd hn (by decide)
  | some c =>
      have hn : c = '\n' := hn
      exact hdecode (hn ▸ hc)

theorem lossy_ne_nil {bs : List UInt8} (h : bs ≠ []) : (lossy bs).toList ≠ [] := by
  have hdecode : decode bs ≠ [] := Utf8.decodeFrom_ne_nil (.inr h)
  simpa [lossy] using hdecode

/-! ## The order of texts -/

namespace Utf8

/-- The last bytes of a character, with six bits each. -/
def laterBytes (v : Nat) : Nat → List UInt8
  | 0 => []
  | n + 1 => UInt8.ofNat (v / 64 ^ n % 64 + 128) :: laterBytes v n

/-- How many bytes follow the first one of a character, and what the first one is. -/
inductive Leads (v : Nat) : Nat → Nat → Prop
  | one (h : v < 0x80) : Leads v 0 v
  | two (h : 0x80 ≤ v ∧ v < 0x800) : Leads v 1 (v / 64 + 192)
  | three (h : 0x800 ≤ v ∧ v < 0x10000) : Leads v 2 (v / 4096 + 224)
  | four (h : 0x10000 ≤ v ∧ v < 0x110000) : Leads v 3 (v / 262144 + 240)

variable {v w n m a b : Nat} {xs ys : List UInt8}

theorem Leads.lt_byte (h : Leads v n a) : a < 256 := by
  cases h <;> omega

/-- A lesser character has a lesser first byte, or as many bytes of which the later ones are less. -/
theorem Leads.lt (hv : Leads v n a) (hw : Leads w m b) (h : v < w) :
    a < b ∨ a = b ∧ n = m ∧ v % 64 ^ n < w % 64 ^ n := by
  cases hv <;> cases hw <;> simp <;> omega

theorem encodeChar_leads (c : Char) :
    ∃ n a, Leads c.toNat n a ∧
      String.utf8EncodeChar c = UInt8.ofNat a :: laterBytes c.toNat n := by
  have hvalid : c.toNat < 0x110000 := by
    rcases c.valid with h | ⟨-, h⟩
    · exact Nat.lt_trans h (by decide)
    · exact h
  rw [Char.toNat] at hvalid ⊢
  simp only [String.utf8EncodeChar]
  generalize c.val.toNat = v at hvalid ⊢
  split
  · exact ⟨_, _, .one (by omega), rfl⟩
  · split
    · refine ⟨_, _, .two (by omega), ?_⟩
      rw [Nat.mod_eq_of_lt (show v / 64 < 32 by omega)]
      simp [laterBytes]
    · split
      · refine ⟨_, _, .three (by omega), ?_⟩
        rw [Nat.mod_eq_of_lt (show v / 4096 < 16 by omega)]
        simp [laterBytes]
      · refine ⟨_, _, .four (by omega), ?_⟩
        rw [Nat.mod_eq_of_lt (show v / 262144 < 8 by omega)]
        simp [laterBytes]

theorem cons_lt_cons (ha : a < 256) (hb : b < 256) (h : a < b ∨ a = b ∧ xs < ys) :
    UInt8.ofNat a :: xs < UInt8.ofNat b :: ys := by
  rw [List.cons_lt_cons_iff, UInt8.lt_iff_toNat_lt, toNat_byte ha, toNat_byte hb]
  rcases h with h | ⟨rfl, h⟩
  · exact .inl h
  · exact .inr ⟨rfl, h⟩

theorem laterBytes_append_lt (h : v % 64 ^ n < w % 64 ^ n) :
    laterBytes v n ++ xs < laterBytes w n ++ ys := by
  induction n with
  | zero => omega
  | succ n ih =>
      rw [Nat.mod_pow_succ, Nat.mod_pow_succ] at h
      have hpos : 0 < 64 ^ n := Nat.pow_pos (by decide)
      have hv := Nat.mod_lt v hpos
      have hw := Nat.mod_lt w hpos
      refine cons_lt_cons (by omega) (by omega) ?_
      rcases Nat.lt_trichotomy (v / 64 ^ n % 64) (w / 64 ^ n % 64) with hlt | heq | hgt
      · exact .inl (by omega)
      · rw [heq] at h ⊢
        exact .inr ⟨rfl, ih (by omega)⟩
      · have hle := Nat.mul_le_mul_left (64 ^ n) hgt
        rw [Nat.mul_succ] at hle
        omega

theorem encodeChar_append_lt {c d : Char} (h : c < d) :
    String.utf8EncodeChar c ++ xs < String.utf8EncodeChar d ++ ys := by
  obtain ⟨n, a, hc, hcs⟩ := encodeChar_leads c
  obtain ⟨m, b, hd, hds⟩ := encodeChar_leads d
  rw [hcs, hds]
  refine cons_lt_cons hc.lt_byte hd.lt_byte ?_
  rcases hc.lt hd h with hab | ⟨rfl, rfl, hlater⟩
  · exact .inl hab
  · exact .inr ⟨rfl, laterBytes_append_lt hlater⟩

end Utf8

theorem encode_lt {cs ds : List Char} (h : cs < ds) : encode cs < encode ds := by
  induction h with
  | @nil d ds =>
      obtain ⟨n, a, -, hd⟩ := Utf8.encodeChar_leads d
      rw [encode, encode, List.flatMap_nil, List.flatMap_cons, hd]
      exact List.nil_lt_cons ..
  | rel h => exact Utf8.encodeChar_append_lt h
  | cons _ ih => exact List.append_left_lt ih

theorem bytes_lt {s t : String} (h : s < t) : bytes s < bytes t :=
  encode_lt h

end ChatAgent.Text

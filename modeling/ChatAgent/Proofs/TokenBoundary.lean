import ChatAgent.Calculator.Evaluation
import ChatAgent.Proofs.Spelling

/-!
# Boundaries of tokens

The tokens of a text stay the same when white space is put into it anywhere but inside a token
(`Token.ofText_spacing`). How far a token goes is up to as many as three characters behind it. But
behind a token nothing has changed up to the next white space, and white space goes on with no token
(`Token.Takes.agrees`).
-/

namespace ChatAgent.Calculator.Token

/-! ## What is behind a token -/

/-- Up to its first white space, or to its end, the second text goes like the first. -/
inductive Agrees : List Char → List Char → Prop
  | ended {r : List Char} : Agrees r []
  | blank {r s : List Char} {c : Char} (h : Text.isBlank c) : Agrees r (c :: s)
  | same {r s : List Char} {c : Char} (h : Agrees r s) : Agrees (c :: r) (c :: s)

namespace Agrees

variable {r s : List Char}

theorem head {P : Char → Prop} (h : Agrees r s) (hP : ∀ c, P c → Text.isBlank c = false)
    (hr : ∀ c ∈ r.head?, ¬ P c) : ∀ c ∈ s.head?, ¬ P c := by
  intro c hc hPc
  cases h with
  | ended => cases hc
  | blank hblank =>
      cases hc
      rw [hP c hPc] at hblank
      contradiction
  | same => exact hr c hc hPc

theorem head_ne (h : Agrees r s) {c : Char} (hc : Text.isBlank c = false)
    (hr : r.head? ≠ some c) : s.head? ≠ some c := by
  have hhead := h.head (P := (· = c)) (fun d hd => hd ▸ hc) fun d hd he => hr (he ▸ hd)
  exact fun hs => hhead c hs rfl

theorem readSign (h : Agrees r s) : Agrees (Numeral.readSign r).2 (Numeral.readSign s).2 := by
  -- A sign is no white space, so it stands in front of both texts unless the second is cut short.
  cases h with
  | ended => exact .ended
  | @blank _ s c hblank =>
      have hplus : c ≠ '+' := by rintro rfl; exact absurd hblank (by decide)
      have hminus : c ≠ '-' := by rintro rfl; exact absurd hblank (by decide)
      simpa [Numeral.readSign, hplus, hminus] using blank hblank
  | @same r s c h =>
      by_cases hplus : c = '+'
      · subst hplus
        exact h
      by_cases hminus : c = '-'
      · subst hminus
        exact h
      simpa [Numeral.readSign, hplus, hminus] using same h

theorem fst_readExponent (h : Agrees r s) (hr : (Numeral.readExponent r).1 = none) :
    (Numeral.readExponent s).1 = none := by
  cases h with
  | ended => rfl
  | @blank _ s c hblank =>
      rw [Numeral.fst_readExponent]
      rintro (rfl | rfl) <;> exact absurd hblank (by decide)
  | same h =>
      rw [Numeral.fst_readExponent] at hr ⊢
      exact fun hletter => h.readSign.head (fun d => isBlank_of_isDigit) (hr hletter)

end Agrees

theorem Numeral.Stops.agrees {n : Numeral} {r s : List Char} (h : n.Stops r) (hs : Agrees r s) :
    n.Stops s where
  digit := hs.head (fun _ => isBlank_of_isDigit) h.digit
  point := fun hf he => hs.head_ne rfl (h.point hf he)
  exponent := fun he => hs.fst_readExponent (h.exponent he)

/-- A token is read in front of any text that is the same up to the first white space. -/
theorem Takes.agrees {t : Token} {text r s : List Char} (h : Takes t text r) (hs : Agrees r s) :
    Takes t text s := by
  cases h with
  | number proper first value stops => exact .number proper first value (stops.agrees hs)
  | name first rest stops =>
      exact .name first rest (hs.head (fun _ => isBlank_of_inName) stops)
  | symbol h star slash =>
      exact .symbol h (fun ht => hs.head_ne rfl (star ht)) fun ht => hs.head_ne rfl (slash ht)

/-! ## Places -/

/-- A token of a text and the positions where it begins and where it ends. -/
structure Place where
  token : Token
  start : Nat
  stop : Nat
  deriving DecidableEq

/-- What stands between the boundaries of a token. -/
def Place.text (p : Place) (s : String) : String :=
  String.ofList ((s.toList.take p.stop).drop p.start)

/-- The tokens of a text that begins at position `i`, up to the first that cannot be read. -/
def places (i : Nat) : List Char → List Place
  | [] => []
  | c :: cs =>
    if Text.isBlank c then places (i + 1) cs
    else
      match _ : read c cs with
      | .ok (t, r) =>
        let stop := i + ((c :: cs).length - r.length)
        ⟨t, i, stop⟩ :: places stop r
      | .error _ => []
termination_by cs => cs.length
decreasing_by
  · simp
  · rename_i h
    exact length_read h

theorem places_blank {c : Char} (hc : Text.isBlank c) (i : Nat) (cs : List Char) :
    places i (c :: cs) = places (i + 1) cs := by
  rw [places, if_pos hc]

theorem Takes.places {t : Token} {text r : List Char} (h : Takes t text r) (i : Nat) :
    places i (text ++ r) = ⟨t, i, i + text.length⟩ :: places (i + text.length) r := by
  obtain ⟨c, cs, rfl, hc, hread⟩ := h.read
  have hlength : (c :: (cs ++ r)).length - r.length = (c :: cs).length := by
    simp only [List.length_cons, List.length_append]
    omega
  rw [List.cons_append, Token.places, if_neg (by simp [hc])]
  split
  · rename_i hread'
    cases hread.symm.trans hread'
    rw [hlength]
  · rename_i hread'
    cases hread.symm.trans hread'

theorem Cut.map_token_places {cs : List Char} {ts : List Token} (h : Cut cs ts) (i : Nat) :
    (places i cs).map Place.token = ts := by
  induction h generalizing i with
  | nil => rw [places, List.map_nil]
  | blank hc _ ih => rw [places_blank hc, ih]
  | token h _ ih => rw [h.places, List.map_cons, ih]

example : places 0 "2e+x ".toList =
    [⟨.number (.int 2), 0, 1⟩, ⟨.name "e", 1, 2⟩, ⟨.plus, 2, 3⟩, ⟨.name "x", 3, 4⟩] := by
  decide +kernel

theorem Cut.mem_places {cs : List Char} {ts : List Token} (h : Cut cs ts) {i : Nat} {p : Place}
    (hp : p ∈ places i cs) : ∃ front text r, cs = front ++ (text ++ r) ∧
      p.start = i + front.length ∧ p.stop = p.start + text.length ∧ Takes p.token text r := by
  induction h generalizing i with
  | nil =>
      rw [places] at hp
      cases hp
  | @blank c _ _ hc _ ih =>
      rw [places_blank hc] at hp
      obtain ⟨front, text, r, rfl, hstart, hstop, htakes⟩ := ih hp
      refine ⟨c :: front, text, r, rfl, ?_, hstop, htakes⟩
      rw [hstart, List.length_cons]
      omega
  | @token t first r _ h _ ih =>
      rw [h.places, List.mem_cons] at hp
      rcases hp with rfl | hp
      · exact ⟨[], first, r, rfl, rfl, rfl, h⟩
      · obtain ⟨front, text, r, rfl, hstart, hstop, htakes⟩ := ih hp
        refine ⟨first ++ front, text, r, by simp, ?_, hstop, htakes⟩
        rw [hstart, List.length_append]
        omega

/-- What stands between the boundaries of a token is this token by itself as well. -/
theorem Cut.ofText_place {s : String} {ts : List Token} (h : Cut s.toList ts) {p : Place}
    (hp : p ∈ places 0 s.toList) : ofText (p.text s) = .ok [p.token] := by
  obtain ⟨front, text, r, hs, hstart, hstop, htakes⟩ := h.mem_places hp
  rw [Nat.zero_add] at hstart
  have hlength : p.stop = (front ++ text).length := by rw [hstop, hstart, List.length_append]
  have hpiece : (s.toList.take p.stop).drop p.start = text := by
    rw [hs, ← List.append_assoc, hlength, List.take_left', hstart, List.drop_left']
    all_goals rfl
  rw [Place.text, hpiece, ofText_eq_ok, String.toList_ofList, ← List.append_nil text]
  exact ⟨nofun, .token (htakes.agrees .ended) .nil⟩

/-! ## White space put in -/

/-- The text, which begins at position `i`, with a gap in front of each of its characters and one at
its end. -/
def spread (gap : Nat → List Char) (i : Nat) : List Char → List Char
  | [] => gap i
  | c :: cs => gap i ++ c :: spread gap (i + 1) cs

/-- White space to put into a text: before, between and behind its tokens, and not inside one. -/
structure Spacing (s : String) where
  /-- What goes in front of the character at a position, and at the end. -/
  gap : Nat → List Char
  blank : ∀ i, ∀ c ∈ gap i, Text.isBlank c
  outside : ∀ p ∈ places 0 s.toList, ∀ i, p.start < i → i < p.stop → gap i = []

/-- The text with the white space in it. -/
def Spacing.text {s : String} (w : Spacing s) : String := String.ofList (spread w.gap 0 s.toList)

/-- The same white space wherever there can be some. -/
def Spacing.everywhere (s : String) (bs : List Char) (h : bs.all Text.isBlank) : Spacing s where
  gap i := if ∃ p ∈ places 0 s.toList, p.start < i ∧ i < p.stop then [] else bs
  blank := by
    intro i c hc
    split at hc
    · cases hc
    · exact List.all_eq_true.mp h c hc
  outside := fun p hp _ hstart hstop => if_pos ⟨p, hp, hstart, hstop⟩

section Spread

variable {gap : Nat → List Char}

theorem spread_append {i : Nat} {text : List Char} (r : List Char)
    (h : ∀ j, i ≤ j → j < i + text.length → gap j = []) :
    spread gap i (text ++ r) = text ++ spread gap (i + text.length) r := by
  induction text generalizing i with
  | nil => rfl
  | cons c cs ih =>
      have hi : gap i = [] := h i (Nat.le_refl i) (by simp)
      have hrest := ih (i := i + 1) fun j hj hlt => h j (by omega) (by simp; omega)
      have hlength : i + 1 + cs.length = i + (c :: cs).length :=
        Nat.succ_add_eq_add_succ i cs.length
      rw [List.cons_append, spread, hi, List.nil_append, hrest, hlength, List.cons_append]

variable (hblank : ∀ i, ∀ c ∈ gap i, Text.isBlank c)

include hblank

theorem agrees_spread (i : Nat) (cs : List Char) : Agrees cs (spread gap i cs) := by
  induction cs generalizing i with
  | nil =>
      rw [spread]
      cases hgap : gap i with
      | nil => exact .ended
      | cons b bs => exact .blank (hblank i b (by simp [hgap]))
  | cons c cs ih =>
      rw [spread]
      cases hgap : gap i with
      | nil => exact .same (ih (i + 1))
      | cons b bs => exact .blank (hblank i b (by simp [hgap]))

theorem cut_gap (i : Nat) {cs : List Char} {ts : List Token} (h : Cut cs ts) :
    Cut (gap i ++ cs) ts := by
  have hgap := hblank i
  generalize gap i = bs at hgap
  induction bs with
  | nil => exact h
  | cons b bs ih =>
      exact .blank (hgap b List.mem_cons_self) (ih fun c hc => hgap c (List.mem_cons_of_mem _ hc))

theorem Cut.spread {cs : List Char} {ts : List Token} (h : Cut cs ts) {i : Nat}
    (houtside : ∀ p ∈ places i cs, ∀ j, p.start < j → j < p.stop → gap j = []) :
    Cut (spread gap i cs) ts := by
  -- By the tokens of the text as it was: each is still read, in front of what its rest has become.
  induction h generalizing i with
  | nil =>
      rw [Token.spread, ← List.append_nil (gap i)]
      exact cut_gap hblank i .nil
  | blank hc _ ih =>
      rw [places_blank hc] at houtside
      exact cut_gap hblank i (.blank hc (ih houtside))
  | @token t text r ts h _ ih =>
      rw [h.places] at houtside
      have hinside := houtside _ List.mem_cons_self
      have hrest := ih fun p hp => houtside p (List.mem_cons_of_mem _ hp)
      obtain ⟨c, cs, rfl, -⟩ := h.read
      have hlength : i + 1 + cs.length = i + (c :: cs).length :=
        Nat.succ_add_eq_add_succ i cs.length
      have hwhole : Token.spread gap (i + 1) (cs ++ r) =
          cs ++ Token.spread gap (i + 1 + cs.length) r :=
        spread_append r fun j hj hlt => hinside j hj (hlength ▸ hlt)
      rw [List.cons_append, Token.spread, hwhole, hlength]
      exact cut_gap hblank i (.token (h.agrees (agrees_spread hblank _ r)) hrest)

end Spread

/-! ## Tokens printed -/

/-- A letter or an underscore, and letters, digits and underscores behind it. -/
def IsName (s : String) : Prop := ∃ c cs, s.toList = c :: cs ∧ beginsName c ∧ ∀ d ∈ cs, inName d

/-- Names, operators, parentheses, commas, and natural numbers up to the greatest integer. -/
def Printable : Token → Prop
  | name s => IsName s
  | t => t.Plain

/-- How a token is written in an expression. -/
def printed : Token → List Char
  | name s => s.toList
  | t => t.chars

/-- The tokens, with single spaces between them. -/
def print (ts : List Token) : String := " ".intercalate (ts.map fun t => String.ofList t.printed)

theorem toList_print (ts : List Token) :
    (print ts).toList = [' '].intercalate (ts.map printed) := by
  rw [print, String.toList_intercalate, List.map_map]
  congr 2
  funext t
  exact String.toList_ofList

theorem takes_printed {t : Token} (h : t.Printable) : Takes t t.printed [] := by
  cases t with
  | number n =>
      cases n with
      | int n =>
          obtain ⟨n, rfl⟩ := Int.eq_ofNat_of_zero_le h.1
          exact takes_natural h.2 nofun
      | float => cases h
  | name s =>
      obtain ⟨c, cs, hs, hfirst, hrest⟩ := h
      have htakes : Takes _ (c :: cs) [] := .name hfirst hrest nofun
      rwa [← hs, String.ofList_toList] at htakes
  | _ => exact .symbol rfl nofun nofun

theorem cut_print {ts : List Token} (h : ∀ t ∈ ts, t.Printable) : Cut (print ts).toList ts := by
  rw [toList_print]
  induction ts with
  | nil => exact .nil
  | cons t ts ih =>
      have ht := h t List.mem_cons_self
      have hrest := ih fun u hu => h u (List.mem_cons_of_mem _ hu)
      cases ts with
      | nil =>
          rw [List.map_cons, List.map_nil, List.intercalate_singleton,
            ← List.append_nil t.printed]
          exact .token (takes_printed ht) .nil
      | cons u us =>
          rw [List.map_cons, List.map_cons, List.intercalate_cons_cons, ← List.map_cons,
            List.append_assoc]
          exact .token ((takes_printed ht).agrees (.blank rfl)) (.blank rfl hrest)

/-- White space that is put into a text before, between and behind its tokens changes neither the
tokens nor the value. Tokens printed with a space between any two of them are found again; only of
none at all there is no text, since the empty one is refused. -/
theorem ofText_spacing :
    (∀ (s : String) (ts : List Token), ofText s = .ok ts →
      (places 0 s.toList).map Place.token = ts ∧
        (∀ p ∈ places 0 s.toList, ofText (p.text s) = .ok [p.token]) ∧
        ∀ w : Spacing s, ofText w.text = .ok ts ∧ evaluate w.text = evaluate s) ∧
    ∀ ts : List Token, (∀ t ∈ ts, t.Printable) →
      ofText (print ts) = if ts = [] then .error (.malformed .empty) else .ok ts := by
  constructor
  · intro s ts h
    obtain ⟨hne, hcut⟩ := ofText_eq_ok.mp h
    refine ⟨hcut.map_token_places 0, fun p hp => hcut.ofText_place hp, fun w => ?_⟩
    have htext : ofText w.text = .ok ts := by
      rw [ofText_eq_ok, Spacing.text, String.toList_ofList]
      exact ⟨hne, hcut.spread w.blank w.outside⟩
    rw [evaluate, evaluate, htext, h]
    exact ⟨rfl, rfl⟩
  · intro ts h
    split
    · rename_i hempty
      rw [ofText, (cut_print h).scan, hempty]
      rfl
    · rename_i hne
      exact ofText_eq_ok.mpr ⟨hne, cut_print h⟩

/-- The letter behind the first number could begin its exponent, and is a name, as no digit follows
its sign; the two stars and the two slashes are one operator each. -/
theorem ofText_spacing_touching :
    ofText "2e+x" = .ok [.number (.int 2), .name "e", .plus, .name "x"] ∧
      ofText "\u30002\u3000e\u3000+\u3000x\u3000" =
        .ok [.number (.int 2), .name "e", .plus, .name "x"] ∧
      evaluate "\u30002\u3000**\u30003\u3000//\u30004\u3000" = evaluate "2**3//4" ∧
      ofText "x_1 ( 9223372036854775807 ** 5" =
        .ok [.name "x_1", .openParen, .number (.int 9223372036854775807), .doubleStar,
          .number (.int 5)] := by
  have hsum : ofText "2e+x" = .ok [.number (.int 2), .name "e", .plus, .name "x"] := by
    decide +kernel
  have hpower : ofText "2**3//4" = .ok [.number (.int 2), .doubleStar, .number (.int 3),
      .doubleSlash, .number (.int 4)] := by
    decide +kernel
  have hsumText : (Spacing.everywhere "2e+x" ['\u3000'] rfl).text =
      "\u30002\u3000e\u3000+\u3000x\u3000" := by
    decide +kernel
  have hpowerText : (Spacing.everywhere "2**3//4" ['\u3000'] rfl).text =
      "\u30002\u3000**\u30003\u3000//\u30004\u3000" := by
    decide +kernel
  have hsumSpaced := (ofText_spacing.1 _ _ hsum).2.2 (.everywhere _ ['\u3000'] rfl)
  have hpowerSpaced := (ofText_spacing.1 _ _ hpower).2.2 (.everywhere _ ['\u3000'] rfl)
  rw [hsumText] at hsumSpaced
  rw [hpowerText] at hpowerSpaced
  refine ⟨hsum, hsumSpaced.1, hpowerSpaced.2, ofText_spacing.2 [.name "x_1", .openParen,
    .number (.int 9223372036854775807), .doubleStar, .number (.int 5)] ?_⟩
  simp only [List.forall_mem_cons]
  exact ⟨⟨'x', ['_', '1'], rfl, rfl, List.all_eq_true.mp rfl⟩, rfl, ⟨by decide, by decide⟩, rfl,
    ⟨by decide, by decide⟩, nofun⟩

/-- No tokens at all are printed as the empty text, which is refused. -/
theorem not_ofText_spacing :
    ¬ ((∀ (s : String) (ts : List Token), ofText s = .ok ts →
        ∀ w : Spacing s, ofText w.text = .ok ts ∧ evaluate w.text = evaluate s) ∧
      ∀ ts : List Token, (∀ t ∈ ts, t.Printable) → ofText (print ts) = .ok ts) := by
  intro h
  exact absurd (h.2 [] nofun) (by decide +kernel)

end ChatAgent.Calculator.Token

import Mathlib.Data.List.Chain
import ChatAgent.Proofs.Scanning

/-!
# Tokens as they are written

Natural numbers, operators and parentheses are found again in any text that spells them, with white
space wherever there is some (`Token.Spells.cut`). Only tokens that would run together have to be
kept apart; in an expression no such tokens are neighbours.
-/

namespace ChatAgent.Calculator.Token

/-- The characters spell the tokens, with white space before, between and behind them or not. -/
inductive Spells : List Token → List Char → Prop
  | nil : Spells [] []
  | blank {c ts cs} (h : Text.isBlank c) (rest : Spells ts cs) : Spells ts (c :: cs)
  | natural {n : Nat} {ts cs} (h : n ≤ int64Max) (rest : Spells ts cs) :
      Spells (.number (.int n) :: ts) (Nat.toDigits 10 n ++ cs)
  | symbol {t s ts cs} (h : t.symbol? = some s) (rest : Spells ts cs) : Spells (t :: ts) (s ++ cs)

/-- How a token is written. -/
def chars : Token → List Char
  | number (.int n) => Nat.toDigits 10 n.toNat
  | t => t.symbol?.getD []

/-- Tokens that `Spells` knows. -/
def Plain : Token → Prop
  | number (.int n) => 0 ≤ n ∧ n ≤ int64Max
  | t => t.symbol?.isSome

theorem spells_chars {ts : List Token} (h : ∀ t ∈ ts, t.Plain) : Spells ts (ts.flatMap chars) := by
  induction ts with
  | nil => exact .nil
  | cons t ts ih =>
      have hrest := ih fun u hu => h u (List.mem_cons_of_mem _ hu)
      have ht := h t List.mem_cons_self
      rw [List.flatMap_cons]
      cases t with
      | number n =>
          cases n with
          | int n =>
              obtain ⟨n, rfl⟩ := Int.eq_ofNat_of_zero_le ht.1
              exact .natural ht.2 hrest
          | float => cases ht
      | name => cases ht
      | _ => exact .symbol rfl hrest

/-- Side by side and without white space these are other tokens. -/
def RunTogether : Token → Token → Prop
  | number _, number _ => True
  | star, star | star, doubleStar => True
  | slash, slash | slash, doubleSlash => True
  | _, _ => False

theorem exists_toDigits (n : Nat) : ∃ d ds, Nat.toDigits 10 n = d :: ds ∧ d.isDigit := by
  obtain ⟨d, ds, hds⟩ := List.exists_cons_of_ne_nil (Nat.toDigits_ne_nil (n := n) (b := 10))
  refine ⟨d, ds, hds, Nat.isDigit_of_mem_toDigits (b := 10) (n := n) (by decide) (by decide) ?_⟩
  rw [hds]
  exact List.mem_cons_self

/-! ## A whole text -/

/-- What spells tokens begins with white space, or the way the first of them does. -/
theorem Spells.head {ts : List Token} {cs : List Char} (h : Spells ts cs) :
    ∀ c ∈ cs.head?, Text.isBlank c ∨ ∃ t ∈ ts.head?,
      (∃ n, t = .number n ∧ c.isDigit) ∨ ∃ s, t.symbol? = some (c :: s) := by
  intro c hc
  cases h with
  | nil => cases hc
  | blank h =>
      cases hc
      exact .inl h
  | @natural n _ _ h _ =>
      obtain ⟨d, ds, hds, hd⟩ := exists_toDigits n
      rw [hds] at hc
      cases hc
      exact .inr ⟨_, rfl, .inl ⟨_, rfl, hd⟩⟩
  | @symbol t s _ _ h _ =>
      refine .inr ⟨t, rfl, .inr ?_⟩
      cases t with
      | number | name => cases h
      | _ =>
          cases h
          cases hc
          exact ⟨_, rfl⟩

theorem Spells.head_number {ts : List Token} {cs : List Char} (h : Spells ts cs) {n : Number}
    (hapart : ∀ t ∈ ts.head?, ¬ RunTogether (.number n) t) : ∀ c ∈ cs.head?, ¬ inNumber c := by
  intro c hc hin
  rcases h.head c hc with hblank | ⟨t, ht, ⟨m, rfl, -⟩ | ⟨s, hs⟩⟩
  · rw [isBlank_of_inNumber hin] at hblank
    contradiction
  · exact hapart _ ht trivial
  · cases t with
    | number | name => cases hs
    | _ =>
        cases hs
        revert hin
        unfold inNumber
        decide

theorem Spells.head_symbol {ts : List Token} {cs : List Char} (h : Spells ts cs) {t : Token}
    (hapart : ∀ u ∈ ts.head?, ¬ RunTogether t u) :
    (t = .star → cs.head? ≠ some '*') ∧ (t = .slash → cs.head? ≠ some '/') := by
  constructor <;>
    · rintro rfl hc
      rcases h.head _ hc with hblank | ⟨u, hu, ⟨_, _, hdigit⟩ | ⟨s, hs⟩⟩
      · exact absurd hblank (by decide)
      · exact absurd hdigit (by decide)
      · cases u <;> simp [symbol?] at hs <;> exact hapart _ hu trivial

theorem Spells.cut {ts : List Token} {cs : List Char} (h : Spells ts cs)
    (hapart : ts.IsChain (¬ RunTogether · ·)) : Cut cs ts := by
  induction h with
  | nil => exact .nil
  | blank h _ ih => exact .blank h (ih hapart)
  | natural h rest ih =>
      obtain ⟨hfirst, hrest⟩ := List.isChain_cons.mp hapart
      exact .token (takes_natural h (rest.head_number hfirst)) (ih hrest)
  | symbol h rest ih =>
      obtain ⟨hfirst, hrest⟩ := List.isChain_cons.mp hapart
      obtain ⟨hstar, hslash⟩ := rest.head_symbol hfirst
      exact .token (.symbol h hstar hslash) (ih hrest)

/-! ## Neighbours -/

/-- Nothing in these tokens runs together, nor do they with a symbol at either end. -/
structure Apart (ts : List Token) : Prop where
  ne_nil : ts ≠ []
  chain : ts.IsChain (¬ RunTogether · ·)
  head : ∀ t ∈ ts.head?, ∀ u : Token, u.symbol?.isSome → ¬ RunTogether u t
  last : ∀ t ∈ ts.getLast?, ∀ u : Token, u.symbol?.isSome → ¬ RunTogether t u

namespace Apart

variable {t : Token} {ts us : List Token}

theorem number (n : Number) : Apart [.number n] where
  ne_nil := nofun
  chain := .singleton _
  head := by
    intro t ht u hu
    cases ht
    cases u <;> simp_all [RunTogether, Token.symbol?]
  last := by
    intro t ht u hu
    cases ht
    cases u <;> simp_all [RunTogether, Token.symbol?]

/-- A sign or an opening parenthesis does not run together with anything in front of it. -/
theorem behind (h : Apart ts) (ht : t = .plus ∨ t = .minus ∨ t = .openParen) :
    Apart (t :: ts) where
  ne_nil := nofun
  chain := by
    refine List.isChain_cons.mpr ⟨fun u hu => h.head u hu t ?_, h.chain⟩
    rcases ht with rfl | rfl | rfl <;> rfl
  head := by
    intro _ hhead u _
    cases hhead
    rcases ht with rfl | rfl | rfl <;> cases u <;> exact id
  last := by
    rw [List.getLast?_cons_of_ne_nil h.ne_nil]
    exact h.last

theorem joined (h : Apart ts) (h' : Apart us) (ht : t.symbol?.isSome) : Apart (ts ++ t :: us) where
  ne_nil := by simp
  chain := by
    refine List.isChain_append.mpr ⟨h.chain, List.isChain_cons.mpr ⟨?_, h'.chain⟩, ?_⟩
    · exact fun u hu => h'.head u hu t ht
    · intro u hu _ hhead
      cases hhead
      exact h.last u hu t ht
  head := by
    rw [List.head?_append_of_ne_nil _ h.ne_nil]
    exact h.head
  last := by
    rw [List.getLast?_append_of_ne_nil _ (List.cons_ne_nil _ _),
      List.getLast?_cons_of_ne_nil h'.ne_nil]
    exact h'.last

theorem enclosed (h : Apart ts) : Apart (.openParen :: ts ++ [.closeParen]) := by
  have hopen : Apart (.openParen :: ts) := h.behind (.inr (.inr rfl))
  refine ⟨nofun, ?_, ?_, ?_⟩
  · refine List.isChain_append.mpr ⟨hopen.chain, .singleton _, ?_⟩
    intro t ht u hu
    cases hu
    exact hopen.last t ht .closeParen rfl
  · rw [List.head?_append_of_ne_nil _ hopen.ne_nil]
    exact hopen.head
  · rw [List.getLast?_append_of_ne_nil _ (List.cons_ne_nil _ _)]
    intro t ht u _
    cases ht
    exact id

end Apart

theorem ofText_spells {ts : List Token} {s : String} (h : Spells ts s.toList) (hapart : Apart ts) :
    ofText s = .ok ts :=
  ofText_eq_ok.mpr ⟨hapart.ne_nil, h.cut hapart.chain⟩

end ChatAgent.Calculator.Token

import ChatAgent.Proofs.Expression

/-!
# Names in expressions

Reading an expression leaves no token out, so every name that stands in it is found in its syntax
tree (`Derives.mentions_eq`), and a tree has a value only if all its names have been looked up with
success. What has a value therefore calls nothing but functions and names nothing else but constants
(`evaluate_names`).
-/

namespace ChatAgent.Calculator

/-! ## Allowed names -/

/-- A name that stands in an expression, and whether it is called. -/
structure Mention where
  name : String
  called : Bool
  deriving DecidableEq

/-- What is called is a function, and what is not is a constant; the case of letters does not
matter. -/
def Mention.Allowed (m : Mention) : Prop :=
  Text.lowercase m.name ∈
    if m.called then Function.all.map (·.name) else Constant.all.map (·.name)

theorem allowed_of_call {s : String} {args : List Number} {v : Number}
    (h : call s args = .ok v) : Mention.Allowed ⟨s, true⟩ := by
  simp only [call] at h
  split at h
  · rename_i f hf
    have hname := List.find?_some hf
    exact List.mem_map.mpr ⟨f, List.mem_of_find?_eq_some hf, of_decide_eq_true hname⟩
  · split at h <;> cases h

theorem allowed_of_valueOf {s : String} {v : Number} (h : valueOf s = .ok v) :
    Mention.Allowed ⟨s, false⟩ := by
  simp only [valueOf] at h
  split at h
  · rename_i c hc
    have hname := List.find?_some hc
    exact List.mem_map.mpr ⟨c, List.mem_of_find?_eq_some hc, of_decide_eq_true hname⟩
  · split at h <;> cases h

/-- No name is that of a constant and of a function. -/
theorem nodup_allowedNames : allowedNames.Nodup := by
  decide

example : Constant.all.length = 4 ∧ Function.all.length = 30 := ⟨rfl, rfl⟩

/-! ## Names in trees -/

mutual

/-- The names in a tree, from left to right. -/
def Tree.mentions : Tree → List Mention
  | .number _ => []
  | .name s => [⟨s, false⟩]
  | .call s args => ⟨s, true⟩ :: Tree.mentionsAll args
  | .negative a => a.mentions
  | .positive a => a.mentions
  | .operation _ a b => a.mentions ++ b.mentions

def Tree.mentionsAll : List Tree → List Mention
  | [] => []
  | a :: as => a.mentions ++ Tree.mentionsAll as

end

mutual

theorem Tree.allowed_of_value : ∀ {t : Tree} {v : Number}, t.value = .ok v →
    ∀ m ∈ t.mentions, m.Allowed
  | .number _, _, _ => nofun
  | .name s, v, h => by
      rw [Tree.value] at h
      rintro m (_ | ⟨_, hm⟩)
      · exact allowed_of_valueOf h
      · cases hm
  | .call s args, v, h => by
      rw [Tree.value] at h
      obtain ⟨vs, hvs, hcall⟩ := bind_eq_ok.mp h
      rintro m (_ | ⟨_, hm⟩)
      · exact allowed_of_call hcall
      · exact Tree.allowed_of_values hvs m hm
  | .negative a, v, h => by
      rw [Tree.value] at h
      obtain ⟨w, hw, -⟩ := bind_eq_ok.mp h
      rw [Tree.mentions]
      exact Tree.allowed_of_value hw
  | .positive a, v, h => by
      rw [Tree.value] at h
      rw [Tree.mentions]
      exact Tree.allowed_of_value h
  | .operation p a b, v, h => by
      rw [Tree.value] at h
      obtain ⟨w, hw, hrest⟩ := bind_eq_ok.mp h
      obtain ⟨x, hx, -⟩ := bind_eq_ok.mp hrest
      intro m hm
      rcases List.mem_append.mp hm with hm | hm
      · exact Tree.allowed_of_value hw m hm
      · exact Tree.allowed_of_value hx m hm

theorem Tree.allowed_of_values : ∀ {as : List Tree} {vs : List Number}, Tree.values as = .ok vs →
    ∀ m ∈ Tree.mentionsAll as, m.Allowed
  | [], _, _ => nofun
  | a :: as, vs, h => by
      rw [Tree.values] at h
      obtain ⟨w, hw, hrest⟩ := bind_eq_ok.mp h
      obtain ⟨ws, hws, -⟩ := bind_eq_ok.mp hrest
      intro m hm
      rcases List.mem_append.mp hm with hm | hm
      · exact Tree.allowed_of_value hw m hm
      · exact Tree.allowed_of_values hws m hm

end

theorem Tree.mentions_grow (a : Tree) (links : List Link) :
    (a.grow links).mentions = a.mentions ++ links.flatMap (·.tree.mentions) := by
  induction links generalizing a with
  | nil => exact (List.append_nil _).symm
  | cons l links ih =>
      refine (ih (.operation l.operation a l.tree)).trans ?_
      rw [Tree.mentions, List.append_assoc]
      rfl

theorem Tree.mentionsAll_eq (as : List Tree) : Tree.mentionsAll as = as.flatMap mentions := by
  induction as with
  | nil => rfl
  | cons a as ih => rw [Tree.mentionsAll, ih, List.flatMap_cons]

/-! ## Names among tokens -/

namespace Token

/-- The names among tokens. One is called if a parenthesis is opened right behind it. -/
def mentions : List Token → List Mention
  | [] => []
  | .name s :: ts => ⟨s, ts.head? = some .openParen⟩ :: mentions ts
  | _ :: ts => mentions ts

theorem mem_mentions {before after : List Token} {s : String} :
    ⟨s, after.head? = some .openParen⟩ ∈ mentions (before ++ .name s :: after) := by
  induction before with
  | nil => exact List.mem_cons_self
  | cons t before ih =>
      cases t with
      | name u => exact List.mem_cons_of_mem _ ih
      | _ => exact ih

end Token

open Token (mentions)

theorem Operation.mentions_token (p : Operation) (ts : List Token) :
    mentions (p.token :: ts) = mentions ts := by
  cases p <;> rfl

/-- Parts behind separators that are no names. -/
theorem mentions_separated {α : Type} (token : α → Token) {tokens : α → List Token}
    {found : α → List Mention} {q : Part} {xs : List α} {r : List Token} (hr : q.Ends r)
    (hxs : ∀ x ∈ xs, token x ∉ q.extenders ∧ ∀ ts, mentions (token x :: ts) = mentions ts)
    (h : ∀ x ∈ xs, ∀ r, q.Ends r → mentions (tokens x ++ r) = found x ++ mentions r) :
    mentions (xs.flatMap (fun x => token x :: tokens x) ++ r) =
      xs.flatMap found ++ mentions r := by
  induction xs with
  | nil => rfl
  | cons x xs ih =>
      have hxs' := fun y hy => hxs y (List.mem_cons_of_mem _ hy)
      have hends : q.Ends (xs.flatMap (fun x => token x :: tokens x) ++ r) :=
        hr.separated fun y hy => (hxs' y hy).1
      rw [List.flatMap_cons, List.cons_append, List.cons_append, (hxs x List.mem_cons_self).2,
        List.append_assoc, h x List.mem_cons_self _ hends,
        ih hxs' fun y hy => h y (List.mem_cons_of_mem _ hy), List.flatMap_cons, List.append_assoc]

/-- What a chain of parts mentions, its first part and its links do. -/
theorem mentions_chain {ops : List Operation} {q q' : Part} (hops : Operation.Links ops q q')
    {ts : List Token} {a : Tree} {links : List Link}
    (first : ∀ r, q.Ends r → mentions (ts ++ r) = a.mentions ++ mentions r)
    (ranks : ∀ l ∈ links, l.operation ∈ ops)
    (rest : ∀ l ∈ links, ∀ r, q.Ends r → mentions (l.tokens ++ r) = l.tree.mentions ++ mentions r)
    {r : List Token} (hr : q'.Ends r) :
    mentions (ts ++ links.flatMap Link.text ++ r) = (a.grow links).mentions ++ mentions r := by
  have hrq := hr.mono hops.subset
  have hlinks : mentions (links.flatMap Link.text ++ r) = _ := mentions_separated _ hrq
    (fun l hl => ⟨hops.not_mem _ (ranks l hl), l.operation.mentions_token⟩) rest
  have hends : q.Ends (links.flatMap Link.text ++ r) :=
    hrq.separated fun l hl => hops.not_mem _ (ranks l hl)
  rw [List.append_assoc, first _ hends, hlinks, Tree.mentions_grow, List.append_assoc]

/-- The names among the tokens of a part are those in its tree. -/
theorem Derives.mentions_eq {q : Part} {d : Nat} {ts : List Token} {a : Tree}
    (h : Derives q d ts a) {r : List Token} (hr : q.Ends r) :
    mentions (ts ++ r) = a.mentions ++ mentions r := by
  induction h generalizing r with
  | expression _ ranks _ ih ihrest =>
      exact mentions_chain Operation.additive_links (fun _ => ih) ranks
        (fun l hl _ => ihrest l hl) hr
  | term _ ranks _ ih ihrest =>
      exact mentions_chain Operation.multiplicative_links (fun _ => ih) ranks
        (fun l hl _ => ihrest l hl) hr
  | positive _ ih | negative _ ih => exact ih hr
  | operand _ ih => exact ih hr
  | power _ ih => exact ih (hr.mono (by decide))
  | @raised d ts us a b _ _ ih ihexponent =>
      have hbase : mentions (ts ++ .doubleStar :: (us ++ r)) = _ :=
        ih (Part.ends_cons.mpr (by decide))
      have hexponent : mentions (us ++ r) = _ := ihexponent hr
      rw [List.append_assoc, List.cons_append, hbase, mentions, hexponent, Tree.mentions,
        List.append_assoc]
      · exact nofun
  | number => rfl
  | @name d s =>
      have hopen : r.head? ≠ some .openParen := fun ho => hr _ ho (by decide)
      rw [List.singleton_append, mentions, Tree.mentions, decide_eq_false hopen]
      rfl
  | @call d s args h ih =>
      have hargs : mentions ([Token.comma].intercalate (args.map (·.1)) ++ .closeParen :: r) =
          Tree.mentionsAll (args.map (·.2)) ++ mentions r := by
        rw [Tree.mentionsAll_eq, List.flatMap_map]
        cases args with
        | nil => rfl
        | cons a args =>
            have hclose : Part.expression.Ends (.closeParen :: r) :=
              Part.ends_cons.mpr (by decide)
            have hmore := mentions_separated (fun _ => .comma) hclose
              (fun _ _ => ⟨by decide, fun _ => rfl⟩)
              fun b hb r' hr' => ih b (List.mem_cons_of_mem _ hb) hr'
            have hends : Part.expression.Ends
                (args.flatMap (fun b => .comma :: b.1) ++ .closeParen :: r) :=
              hclose.separated fun _ _ => by decide
            rw [List.map_cons, intercalate_cons, List.flatMap_map, List.append_assoc,
              ih a List.mem_cons_self hends, hmore, List.flatMap_cons, List.append_assoc]
            rfl
      simp only [List.cons_append, List.append_assoc, List.nil_append, mentions, hargs,
        Tree.mentions]
      rfl
  | @group d ts a _ ih =>
      have hinside : mentions (ts ++ .closeParen :: r) = _ := ih (Part.ends_cons.mpr (by decide))
      simp only [List.cons_append, List.append_assoc, List.nil_append, mentions, hinside]

/-! ## Evaluation -/

theorem allowed_of_evaluateTokens {ts : List Token} {v : Number}
    (h : evaluateTokens ts = .ok v) : ∀ m ∈ mentions ts, m.Allowed := by
  obtain ⟨a, ha⟩ := derives_of_evaluateTokens h
  have hmentions := ha.mentions_eq (Part.ends_nil _)
  rw [List.append_nil, Token.mentions, List.append_nil] at hmentions
  rw [evaluateTokens_of_derives ha] at h
  rw [hmentions]
  exact Tree.allowed_of_value h

/-- Where an expression has a value, every name in it that is called is that of a function, and
every other one that of a constant. So one that names anything else anywhere is at fault, and so is
one that calls a constant or does not call a function. -/
theorem evaluate_names (s : String) :
    (∀ v, evaluate s = .ok v → ∃ ts, Token.ofText s = .ok ts ∧
      ∀ before name after, ts = before ++ .name name :: after →
        (after.head? = some .openParen → Text.lowercase name ∈ Function.all.map (·.name)) ∧
        (after.head? ≠ some .openParen → Text.lowercase name ∈ Constant.all.map (·.name))) ∧
    ∀ before name after, Token.ofText s = .ok (before ++ .name name :: after) →
      (Text.lowercase name ∉ allowedNames ∨
        after.head? = some .openParen ∧ Text.lowercase name ∈ Constant.all.map (·.name) ∨
        after.head? ≠ some .openParen ∧ Text.lowercase name ∈ Function.all.map (·.name)) →
      ∃ e, evaluate s = .error e := by
  have hallowed {v : Number} (h : evaluate s = .ok v) : ∃ ts, Token.ofText s = .ok ts ∧
      ∀ before name after, ts = before ++ .name name :: after →
        Mention.Allowed ⟨name, after.head? = some .openParen⟩ := by
    obtain ⟨ts, hts, hv⟩ := bind_eq_ok.mp h
    refine ⟨ts, hts, ?_⟩
    rintro before name after rfl
    exact allowed_of_evaluateTokens hv _ Token.mem_mentions
  refine ⟨fun v h => ?_, fun before name after hts hname => ?_⟩
  · obtain ⟨ts, hts, hm⟩ := hallowed h
    refine ⟨ts, hts, fun before name after he => ⟨fun ho => ?_, fun ho => ?_⟩⟩
    · simpa [Mention.Allowed, ho] using hm before name after he
    · simpa [Mention.Allowed, ho] using hm before name after he
  · cases hv : evaluate s with
    | error e => exact ⟨e, rfl⟩
    | ok v =>
        obtain ⟨ts, hts', hm⟩ := hallowed hv
        cases hts.symm.trans hts'
        have hm := hm before name after rfl
        have hdisjoint := (List.nodup_append.mp nodup_allowedNames).2.2
        by_cases ho : after.head? = some .openParen
        · simp only [Mention.Allowed, ho, decide_true, ↓reduceIte] at hm
          rcases hname with hn | ⟨-, hn⟩ | ⟨hne, -⟩
          · exact absurd (List.mem_append_right _ hm) hn
          · exact absurd rfl (hdisjoint _ hn _ hm)
          · exact absurd ho hne
        · simp only [Mention.Allowed, ho, decide_false, Bool.false_eq_true, ↓reduceIte] at hm
          rcases hname with hn | ⟨he, -⟩ | ⟨-, hn⟩
          · exact absurd (List.mem_append_left _ hm) hn
          · exact absurd he ho
          · exact absurd rfl (hdisjoint _ hm _ hn)

theorem evaluate_names_gcd :
    (∃ ts, Token.ofText "GCD(4, 6)" = .ok ts ∧
      ∀ before name after, ts = before ++ .name name :: after →
        (after.head? = some .openParen → Text.lowercase name ∈ Function.all.map (·.name)) ∧
        (after.head? ≠ some .openParen → Text.lowercase name ∈ Constant.all.map (·.name))) ∧
      ∃ e, evaluate "max(1, gcd)" = .error e :=
  ⟨(evaluate_names _).1 (.int 2) (by with_unfolding_all rfl),
    (evaluate_names _).2 [.name "max", .openParen, .number (.int 1), .comma] "gcd" [.closeParen]
      (by with_unfolding_all rfl) (.inr (.inr (by decide)))⟩

end ChatAgent.Calculator

import ChatAgent.Proofs.ExpressionTree

/-!
# Evaluation in one pass

Evaluating an expression while it is read gives what parsing it and evaluating its tree gives
(`evaluate_eq`). Each reader takes exactly the tokens of its part, or fails.
-/

namespace ChatAgent.Calculator

theorem ok_bind {α β : Type} (a : α) (f : α → Except Fault β) : Except.ok a >>= f = f a := rfl

theorem bind_eq_ok {α β : Type} {x : Except Fault α} {f : α → Except Fault β} {b : β} :
    x >>= f = .ok b ↔ ∃ a, x = .ok a ∧ f a = .ok b := by
  cases x with
  | ok a => simp [bind, Except.bind]
  | error e => simp [bind, Except.bind]

/-- The reader of a part, where operands may nest so many levels deep. -/
def Part.read (q : Part) (d : Nat) : List Token → Reading :=
  match q with
  | .expression => Calculator.expression (Calculator.operand d)
  | .term => Calculator.term (Calculator.operand d)
  | .operand => Calculator.operand d
  | .power => powered (Calculator.operand d)
  | .primary => Calculator.primary (Calculator.operand d)

/-- A reader gives the value of a tree for some tokens, wherever the part that they make up ends. -/
def Completes (read : List Token → Reading) (q : Part) (ts : List Token) (a : Tree) : Prop :=
  ∀ r, q.Ends r → read (ts ++ r) = a.value.map (·, r)

/-- A reader that succeeds has taken the tokens of a part, and gives the value of its tree. -/
def Sound (read : List Token → Reading) (q : Part) (d : Nat) : Prop :=
  ∀ ts v r, read ts = .ok (v, r) → ∃ us a, ts = us ++ r ∧ Derives q d us a ∧ a.value = .ok v

/-! ## Chains of operations -/

theorem additive?_eq (t : Token) :
    additive? t = (Operation.additive.find? (·.token = t)).map (·.apply) := by
  cases t <;> rfl

theorem multiplicative?_eq (t : Token) :
    multiplicative? t = (Operation.multiplicative.find? (·.token = t)).map (·.apply) := by
  cases t <;> rfl

/-- There are enough rounds for all links. -/
theorem length_le_separated {α : Type} {token : α → Token} {tokens : α → List Token} (xs : List α)
    (r : List Token) :
    xs.length ≤ (xs.flatMap (fun x => token x :: tokens x) ++ r).length := by
  induction xs with
  | nil => exact Nat.zero_le _
  | cons x xs ih =>
      simp only [List.flatMap_cons, List.length_append, List.length_cons] at ih ⊢
      omega

section Chain

variable {operation? : Token → Option (Number → Number → Result)} {ops : List Operation}
  {read : List Token → Reading} {q q' : Part} {d : Nat}

theorem operation?_token (h : ∀ t, operation? t = (ops.find? (·.token = t)).map (·.apply))
    {p : Operation} (hp : p ∈ ops) : operation? p.token = some p.apply := by
  cases hf : ops.find? (·.token = p.token) with
  | none => simpa using List.find?_eq_none.mp hf p hp
  | some p' =>
      have htoken := List.find?_some hf
      rw [h, hf, Operation.token_inj (of_decide_eq_true htoken)]
      rfl

theorem chain_ends (h : ∀ t, operation? t = (ops.find? (·.token = t)).map (·.apply))
    {ts : List Token} (hts : ∀ t ∈ ts.head?, ∀ p ∈ ops, p.token ≠ t) (n : Nat) (v : Number) :
    chain operation? read n v ts = .ok (v, ts) := by
  cases n with
  | zero => rfl
  | succ n =>
      cases ts with
      | nil => rfl
      | cons t ts =>
          have hnone : ops.find? (·.token = t) = none := by
            simpa using hts t rfl
          rw [chain, h, hnone]
          rfl

/-- A chain carries the operations of its links out, from left to right. -/
theorem chain_links (h : ∀ t, operation? t = (ops.find? (·.token = t)).map (·.apply))
    (hops : Operation.Links ops q q') {links : List Link} (ranks : ∀ l ∈ links, l.operation ∈ ops)
    (hread : ∀ l ∈ links, Completes read q l.tokens l.tree) {r : List Token} (hr : q'.Ends r)
    {n : Nat} (hn : links.length ≤ n) (a : Tree) :
    (do
      let v ← a.value
      chain operation? read n v (links.flatMap Link.text ++ r)) =
      (a.grow links).value.map (·, r) := by
  induction links generalizing n a with
  | nil =>
      have hr' : ∀ t ∈ r.head?, ∀ p ∈ ops, p.token ≠ t := by
        rintro t ht p hp rfl
        exact hr _ ht (hops.mem p hp)
      simp only [List.flatMap_nil, List.nil_append, chain_ends h hr', Tree.grow, List.foldl_nil]
      cases a.value <;> rfl
  | cons l links ih =>
      obtain ⟨n, rfl⟩ : ∃ m, n = m + 1 := ⟨n - 1, by simp at hn; omega⟩
      have hl := hread l List.mem_cons_self (links.flatMap Link.text ++ r)
        ((hr.mono hops.subset).separated fun m hm =>
          hops.not_mem _ (ranks m (List.mem_cons_of_mem _ hm)))
      have hrest := ih (fun m hm => ranks m (List.mem_cons_of_mem _ hm))
        (fun m hm => hread m (List.mem_cons_of_mem _ hm)) (Nat.le_of_succ_le_succ hn)
        (.operation l.operation a l.tree)
      rw [Tree.grow, List.foldl_cons, ← Tree.grow, ← hrest]
      simp only [List.flatMap_cons, Link.text, List.cons_append, List.append_assoc, chain,
        operation?_token h (ranks l List.mem_cons_self), Tree.value]
      rw [hl]
      cases a.value with
      | error e => rfl
      | ok v =>
          cases l.tree.value with
          | error e => rfl
          | ok w => rfl

theorem chain_sound (h : ∀ t, operation? t = (ops.find? (·.token = t)).map (·.apply))
    (hread : Sound read q d) {n : Nat} {v w : Number} {ts r : List Token}
    (hc : chain operation? read n v ts = .ok (w, r)) :
    ∃ links : List Link, ts = links.flatMap Link.text ++ r ∧ (∀ l ∈ links, l.operation ∈ ops) ∧
      (∀ l ∈ links, Derives q d l.tokens l.tree) ∧
      ∀ a : Tree, a.value = .ok v → (a.grow links).value = .ok w := by
  induction n generalizing v ts with
  | zero =>
      cases hc
      exact ⟨[], rfl, nofun, nofun, fun a ha => ha⟩
  | succ n ih =>
      cases ts with
      | nil =>
          cases hc
          exact ⟨[], rfl, nofun, nofun, fun a ha => ha⟩
      | cons t ts =>
          rw [chain] at hc
          split at hc
          · cases hc
            exact ⟨[], rfl, nofun, nofun, fun a ha => ha⟩
          · rename_i f hf
            rw [h, Option.map_eq_some_iff] at hf
            obtain ⟨p, hp, rfl⟩ := hf
            obtain ⟨⟨x, rest⟩, hx, happly⟩ := bind_eq_ok.mp hc
            obtain ⟨y, hy, hchain⟩ := bind_eq_ok.mp happly
            obtain ⟨us, b, rfl, hb, hbv⟩ := hread _ _ _ hx
            obtain ⟨links, rfl, ranks, hlinks, hvalue⟩ := ih hchain
            have hmem : p ∈ ops := List.mem_of_find?_eq_some hp
            have htoken : p.token = t := by simpa using List.find?_some hp
            refine ⟨⟨p, us, b⟩ :: links, ?_, ?_, ?_, ?_⟩
            · simp [Link.text, htoken]
            · rintro l (_ | ⟨_, hl⟩)
              · exact hmem
              · exact ranks l hl
            · rintro l (_ | ⟨_, hl⟩)
              · exact hb
              · exact hlinks l hl
            · intro a ha
              refine hvalue (.operation p a b) ?_
              rw [Tree.value, ha, hbv]
              exact hy

/-- What the readers of terms and of expressions do. -/
theorem chain_completes (h : ∀ t, operation? t = (ops.find? (·.token = t)).map (·.apply))
    (hops : Operation.Links ops q q') {ts : List Token} {a : Tree} {links : List Link}
    (first : Completes read q ts a) (ranks : ∀ l ∈ links, l.operation ∈ ops)
    (rest : ∀ l ∈ links, Completes read q l.tokens l.tree) :
    Completes (fun ts => do
      let (v, rest) ← read ts
      chain operation? read rest.length v rest) q' (ts ++ links.flatMap Link.text)
      (a.grow links) := by
  intro r hr
  have hlength : links.length ≤ (links.flatMap Link.text ++ r).length := length_le_separated links r
  have hfirst : read (ts ++ (links.flatMap Link.text ++ r)) = _ :=
    first _ ((hr.mono hops.subset).separated fun l hl => hops.not_mem _ (ranks l hl))
  rw [← chain_links h hops ranks rest hr hlength a, List.append_assoc]
  simp only [hfirst]
  cases a.value <;> rfl

theorem chain_reader_sound (h : ∀ t, operation? t = (ops.find? (·.token = t)).map (·.apply))
    (hread : Sound read q d)
    (hderives : ∀ {ts a links}, Derives q d ts a → (∀ l ∈ links, l.operation ∈ ops) →
      (∀ l ∈ links, Derives q d l.tokens l.tree) →
      Derives q' d (ts ++ links.flatMap Link.text) (a.grow links)) :
    Sound (fun ts => do
      let (v, rest) ← read ts
      chain operation? read rest.length v rest) q' d := by
  intro ts v r hv
  obtain ⟨⟨w, rest⟩, hw, hchain⟩ := bind_eq_ok.mp hv
  obtain ⟨us, a, rfl, ha, haw⟩ := hread _ _ _ hw
  obtain ⟨links, rfl, ranks, hlinks, hvalue⟩ := chain_sound h hread hchain
  exact ⟨_, _, (List.append_assoc ..).symm, hderives ha ranks hlinks, hvalue a haw⟩

end Chain

/-! ## Arguments -/

theorem expect_eq_ok {t : Token} {ts r : List Token} : expect t ts = .ok r ↔ ts = t :: r := by
  cases ts with
  | nil => simp [expect]
  | cons u ts =>
      by_cases h : u = t
      · simp [expect, h]
      · simp [expect, h]

theorem moreArguments_separated {operand : List Token → Reading}
    {args : List (List Token × Tree)}
    (hread : ∀ a ∈ args, Completes (expression operand) .expression a.1 a.2) (r : List Token)
    {n : Nat} (hn : args.length ≤ n) (vs : List Number) :
    moreArguments operand n vs (args.flatMap (.comma :: ·.1) ++ .closeParen :: r) =
      (Tree.values (args.map (·.2))).map (fun ws => (vs ++ ws, r)) := by
  induction args generalizing n vs with
  | nil => cases n <;> simp [moreArguments, expect, Tree.values, Except.map, bind, Except.bind]
  | cons a args ih =>
      obtain ⟨n, rfl⟩ : ∃ m, n = m + 1 := ⟨n - 1, by simp at hn; omega⟩
      have ha := hread a List.mem_cons_self (args.flatMap (.comma :: ·.1) ++ .closeParen :: r)
        ((Part.ends_cons.mpr (by decide)).separated fun _ _ => by decide)
      have hrest := fun vs => ih (fun b hb => hread b (List.mem_cons_of_mem _ hb))
        (Nat.le_of_succ_le_succ hn) vs
      simp only [List.flatMap_cons, List.cons_append, List.append_assoc, moreArguments, ha,
        List.map_cons, Tree.values]
      cases a.2.value with
      | error e => rfl
      | ok v =>
          simp only [Except.map, bind, Except.bind, hrest]
          cases Tree.values (args.map (·.2)) with
          | error e => rfl
          | ok ws => simp

theorem arguments_separated {operand : List Token → Reading} {args : List (List Token × Tree)}
    (hread : ∀ a ∈ args, Completes (expression operand) .expression a.1 a.2)
    (hbegins : ∀ a ∈ args, Begins .expression a.1) (r : List Token) :
    arguments operand ([Token.comma].intercalate (args.map (·.1)) ++ .closeParen :: r) =
      (Tree.values (args.map (·.2))).map (·, r) := by
  cases args with
  | nil => rfl
  | cons a args =>
      obtain ⟨t, us, ht, hne, -⟩ := hbegins a List.mem_cons_self
      have ha := hread a List.mem_cons_self (args.flatMap (.comma :: ·.1) ++ .closeParen :: r)
        ((Part.ends_cons.mpr (by decide)).separated fun _ _ => by decide)
      have hlength : args.length ≤ (args.flatMap (.comma :: ·.1) ++ .closeParen :: r).length :=
        length_le_separated args _
      have hmore := moreArguments_separated (fun b hb => hread b (List.mem_cons_of_mem _ hb)) r
        hlength
      rw [ht] at ha
      simp only [List.map_cons, intercalate_cons, List.flatMap_map, List.append_assoc, Tree.values,
        ht, List.cons_append]
      rw [arguments, ← List.cons_append, ha]
      · cases a.2.value with
        | error e => rfl
        | ok v =>
            simp only [Except.map, ok_bind, hmore]
            cases Tree.values (args.map (·.2)) with
            | error e => rfl
            | ok vs => rfl
      · rintro _ h
        exact hne (List.cons.inj h).1

theorem moreArguments_sound {operand : List Token → Reading} {d : Nat}
    (hread : Sound (expression operand) .expression d) {n : Nat} {vs ws : List Number}
    {ts r : List Token} (hm : moreArguments operand n vs ts = .ok (ws, r)) :
    ∃ args : List (List Token × Tree), ts = args.flatMap (.comma :: ·.1) ++ .closeParen :: r ∧
      (∀ a ∈ args, Derives .expression d a.1 a.2) ∧
      ∃ us, Tree.values (args.map (·.2)) = .ok us ∧ ws = vs ++ us := by
  induction n generalizing vs ts with
  | zero =>
      obtain ⟨rest, hrest, he⟩ := bind_eq_ok.mp hm
      cases he
      exact ⟨[], expect_eq_ok.mp hrest, nofun, [], rfl, (List.append_nil _).symm⟩
  | succ n ih =>
      unfold moreArguments at hm
      split at hm
      · rename_i ts hn
        cases hn
        obtain ⟨⟨v, rest⟩, hv, hmore⟩ := bind_eq_ok.mp hm
        obtain ⟨us, a, rfl, ha, hav⟩ := hread _ _ _ hv
        obtain ⟨args, rfl, hargs, vals, hvals, rfl⟩ := ih hmore
        refine ⟨(us, a) :: args, by simp, ?_, v :: vals, ?_, by simp⟩
        · rintro b (_ | ⟨_, hb⟩)
          · exact ha
          · exact hargs b hb
        · simp only [List.map_cons, Tree.values, hav, hvals]
          rfl
      · obtain ⟨rest, hrest, he⟩ := bind_eq_ok.mp hm
        cases he
        exact ⟨[], expect_eq_ok.mp hrest, nofun, [], rfl, (List.append_nil _).symm⟩

/-! ## Parts -/

/-- Tokens that make up a part are read to the end, and give the value of their tree. -/
theorem completes_of_derives {q : Part} {d : Nat} {ts : List Token} {a : Tree}
    (h : Derives q d ts a) : Completes (q.read d) q ts a := by
  induction h with
  | expression _ ranks _ ih ihrest =>
      exact chain_completes additive?_eq Operation.additive_links ih ranks ihrest
  | term _ ranks _ ih ihrest =>
      exact chain_completes multiplicative?_eq Operation.multiplicative_links ih ranks ihrest
  | positive _ ih => exact ih
  | @negative d ts a _ ih =>
      intro r hr
      have hread : operand d (ts ++ r) = _ := ih r hr
      rw [List.cons_append, Part.read, operand, hread, Tree.value]
      cases a.value with
      | error e => rfl
      | ok v => rfl
  | @operand d ts a h ih =>
      intro r hr
      obtain ⟨t, us, rfl, -, hsign⟩ := h.begins
      obtain ⟨hplus, hminus⟩ := hsign (.inl rfl)
      rw [← ih r hr, Part.read, List.cons_append, operand]
      · rfl
      · rintro _ h
        exact hminus (List.cons.inj h).1
      · rintro _ h
        exact hplus (List.cons.inj h).1
  | @power d ts a _ ih =>
      intro r hr
      have hread : primary (operand d) (ts ++ r) = _ := ih r (hr.mono (by decide))
      rw [Part.read, powered, hread]
      cases a.value with
      | error e => rfl
      | ok v =>
          cases r with
          | nil => rfl
          | cons t r =>
              have ht : t ≠ .doubleStar := by
                rintro rfl
                exact Part.ends_cons.mp hr (by decide)
              cases t with
              | doubleStar => exact absurd rfl ht
              | _ => rfl
  | @raised d ts us a b _ _ ih ihexponent =>
      intro r hr
      have hbase : primary (operand d) (ts ++ .doubleStar :: (us ++ r)) = _ :=
        ih _ (Part.ends_cons.mpr (by decide))
      have hexponent : operand d (us ++ r) = _ := ihexponent r hr
      rw [Part.read, powered, List.append_assoc, List.cons_append, hbase, Tree.value]
      cases a.value with
      | error e => rfl
      | ok v =>
          simp only [Except.map, ok_bind, hexponent]
          cases b.value with
          | error e => rfl
          | ok w =>
              simp only [ok_bind, Operation.apply]
              cases power v w <;> rfl
  | number => exact fun r _ => rfl
  | @name d s =>
      intro r hr
      rw [Part.read, List.singleton_append, primary, Tree.value]
      · cases valueOf s <;> rfl
      · rintro us rfl
        exact Part.ends_cons.mp hr (by decide)
  | @call d s args h ih =>
      intro r hr
      have hargs := arguments_separated ih (fun a ha => (h a ha).begins) r
      simp only [List.cons_append, List.append_assoc, List.nil_append, Part.read, primary, hargs,
        Tree.value]
      cases Tree.values (args.map (·.2)) with
      | error e => rfl
      | ok vs =>
          simp only [Except.map, ok_bind]
          cases Calculator.call s vs <;> rfl
  | @group d ts a _ ih =>
      intro r hr
      have hread : expression (operand d) (ts ++ .closeParen :: r) = _ :=
        ih _ (Part.ends_cons.mpr (by decide))
      simp only [List.cons_append, List.append_assoc, List.nil_append, Part.read, primary, hread]
      cases a.value <;> rfl

/-! Whatever is read is a part. -/

section Level

variable {operand : List Token → Reading} {d : Nat}

theorem term_sound (h : Sound operand .operand d) : Sound (term operand) .term d :=
  chain_reader_sound multiplicative?_eq h Derives.term

theorem expression_sound (h : Sound operand .operand d) :
    Sound (expression operand) .expression d :=
  chain_reader_sound additive?_eq (term_sound h) Derives.expression

theorem arguments_sound (h : Sound operand .operand d) {ts r : List Token} {vs : List Number}
    (hr : arguments operand ts = .ok (vs, r)) :
    ∃ args : List (List Token × Tree),
      ts = [Token.comma].intercalate (args.map (·.1)) ++ .closeParen :: r ∧
      (∀ a ∈ args, Derives .expression d a.1 a.2) ∧ Tree.values (args.map (·.2)) = .ok vs := by
  unfold arguments at hr
  split at hr
  · cases hr
    exact ⟨[], rfl, nofun, rfl⟩
  · obtain ⟨⟨v, rest⟩, hv, hmore⟩ := bind_eq_ok.mp hr
    obtain ⟨us, a, rfl, ha, hav⟩ := expression_sound h _ _ _ hv
    obtain ⟨args, rfl, hargs, ws, hws, rfl⟩ := moreArguments_sound (expression_sound h) hmore
    refine ⟨(us, a) :: args, ?_, ?_, ?_⟩
    · rw [List.map_cons, intercalate_cons, List.flatMap_map, List.append_assoc]
    · rintro b (_ | ⟨_, hb⟩)
      · exact ha
      · exact hargs b hb
    · rw [List.map_cons, Tree.values, hav, hws]
      rfl

theorem primary_sound (h : Sound operand .operand d) : Sound (primary operand) .primary d := by
  intro ts v r hr
  unfold primary at hr
  split at hr
  · cases hr
    exact ⟨_, _, rfl, .number, rfl⟩
  · obtain ⟨⟨w, rest⟩, hw, hrest⟩ := bind_eq_ok.mp hr
    obtain ⟨rest', hclose, hend⟩ := bind_eq_ok.mp hrest
    obtain ⟨us, a, rfl, ha, haw⟩ := expression_sound h _ _ _ hw
    cases expect_eq_ok.mp hclose
    cases hend
    exact ⟨_, a, by simp, .group ha, haw⟩
  · rename_i s ts
    obtain ⟨⟨vs, rest⟩, hvs, hcall⟩ := bind_eq_ok.mp hr
    obtain ⟨w, hw, hend⟩ := bind_eq_ok.mp hcall
    obtain ⟨args, rfl, hargs, hvalues⟩ := arguments_sound h hvs
    cases hend
    refine ⟨_, .call s _, by simp, .call hargs, ?_⟩
    rw [Tree.value, hvalues]
    exact hw
  · obtain ⟨w, hw, hend⟩ := bind_eq_ok.mp hr
    cases hend
    exact ⟨_, _, rfl, .name, hw⟩
  · cases hr
  · cases hr

theorem powered_sound (h : Sound operand .operand d) : Sound (powered operand) .power d := by
  intro ts v r hr
  obtain ⟨⟨b, rest⟩, hb, hexponent⟩ := bind_eq_ok.mp hr
  obtain ⟨us, a, rfl, ha, hab⟩ := primary_sound h _ _ _ hb
  split at hexponent
  · rename_i he
    cases he
    obtain ⟨⟨e, rest'⟩, he, hpower⟩ := bind_eq_ok.mp hexponent
    obtain ⟨w, hw, hend⟩ := bind_eq_ok.mp hpower
    obtain ⟨us', a', rfl, ha', hae⟩ := h _ _ _ he
    cases hend
    refine ⟨_, _, by simp, .raised ha ha', ?_⟩
    rw [Tree.value, hab, hae]
    exact hw
  · rename_i he
    cases he
    cases hexponent
    exact ⟨us, a, rfl, .power ha, hab⟩

end Level

theorem operand_sound (d : Nat) : Sound (operand d) .operand d := by
  induction d with
  | zero => exact nofun
  | succ d ih =>
      intro ts v r hr
      unfold operand at hr
      split at hr
      · contradiction
      · rename_i hd
        cases hd
        obtain ⟨⟨w, rest⟩, hw, hneg⟩ := bind_eq_ok.mp hr
        obtain ⟨x, hx, hend⟩ := bind_eq_ok.mp hneg
        obtain ⟨us, a, rfl, ha, haw⟩ := ih _ _ _ hw
        cases hend
        refine ⟨_, _, rfl, .negative ha, ?_⟩
        rw [Tree.value, haw]
        exact hx
      · rename_i hd
        cases hd
        obtain ⟨us, a, rfl, ha, haw⟩ := ih _ _ _ hr
        exact ⟨_, _, rfl, .positive ha, haw⟩
      · rename_i hd _ _
        cases hd
        obtain ⟨us, a, rfl, ha, haw⟩ := powered_sound ih _ _ _ hr
        exact ⟨us, a, rfl, .operand ha, haw⟩

/-! ## Evaluation -/

theorem evaluateTokens_of_derives {ts : List Token} {a : Tree}
    (h : Derives .expression maxDepth ts a) : evaluateTokens ts = a.value := by
  have hread : expression (operand maxDepth) (ts ++ []) = _ :=
    completes_of_derives h [] (Part.ends_nil _)
  rw [List.append_nil] at hread
  rw [evaluateTokens, hread]
  cases a.value <;> rfl

theorem derives_of_evaluateTokens {ts : List Token} {v : Number} (h : evaluateTokens ts = .ok v) :
    ∃ a, Derives .expression maxDepth ts a := by
  obtain ⟨⟨w, rest⟩, hw, hend⟩ := bind_eq_ok.mp h
  obtain ⟨us, a, rfl, ha, -⟩ := expression_sound (operand_sound maxDepth) _ _ _ hw
  cases rest with
  | nil =>
      rw [List.append_nil]
      exact ⟨a, ha⟩
  | cons t rest => cases hend

/-- An expression has the value of its syntax tree. Where the text has no tokens that fault is
given, and where the tokens make up no expression, or nest too deep, some fault is. -/
theorem evaluate_eq (s : String) :
    (∀ e, Token.ofText s = .error e → evaluate s = .error e) ∧
      ∀ ts, Token.ofText s = .ok ts →
        (∀ d d' a a', Derives .expression d ts a → Derives .expression d' ts a' → a = a') ∧
        (∀ a, Derives .expression 100 ts a →
          evaluate s = a.value ∧ ∀ why, evaluate s ≠ .error (.malformed why)) ∧
        ((∀ a, ¬ Derives .expression 100 ts a) → ∃ e, evaluate s = .error e) := by
  constructor
  · intro e he
    rw [evaluate, he]
    rfl
  · intro ts hts
    have hs : evaluate s = evaluateTokens ts := by
      rw [evaluate, hts]
      rfl
    rw [hs]
    refine ⟨?_, ?_, ?_⟩
    · intro d d' a a' h h'
      exact (h.agree h' [] [] (Part.ends_nil _) (Part.ends_nil _) rfl).2
    · intro a h
      have hvalue := evaluateTokens_of_derives h
      rw [hvalue]
      exact ⟨rfl, a.value_wellFormed⟩
    · intro h
      cases hv : evaluateTokens ts with
      | error e => exact ⟨e, rfl⟩
      | ok v =>
          obtain ⟨a, ha⟩ := derives_of_evaluateTokens hv
          exact absurd ha (h a)

end ChatAgent.Calculator

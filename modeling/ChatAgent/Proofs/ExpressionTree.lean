import ChatAgent.Calculator.Evaluation

/-!
# Syntax trees of expressions

Which tokens make up an expression, with their syntax tree (`Derives`), and the value of a tree. A
tree has a value or a fault of value; it never has a fault of form (`Tree.value_wellFormed`). Tokens
make up one tree at most (`Derives.unique`).
-/

namespace ChatAgent.Calculator

/-- An operation on two numbers. -/
inductive Operation where
  | add | sub | mul | divide | floorDivide | modulo | power
  deriving DecidableEq, Repr

namespace Operation

def token : Operation → Token
  | add => .plus
  | sub => .minus
  | mul => .star
  | divide => .slash
  | floorDivide => .doubleSlash
  | modulo => .percent
  | power => .doubleStar

def apply : Operation → Number → Number → Result
  | add => Calculator.add
  | sub => Calculator.sub
  | mul => Calculator.mul
  | divide => Calculator.divide
  | floorDivide => Calculator.floorDivide
  | modulo => Calculator.modulo
  | power => Calculator.power

def additive : List Operation := [add, sub]

def multiplicative : List Operation := [mul, divide, floorDivide, modulo]

theorem token_inj {p q : Operation} (h : p.token = q.token) : p = q := by
  cases p <;> cases q <;> first | rfl | cases h

end Operation

inductive Tree where
  | number (n : Number)
  | name (s : String)
  | call (s : String) (args : List Tree)
  | negative (a : Tree)
  | positive (a : Tree)
  | operation (p : Operation) (a b : Tree)

mutual

/-- The value of a tree: first those of its parts, from left to right. -/
def Tree.value : Tree → Result
  | .number n => .ok n
  | .name s => valueOf s
  | .call s args => do
    let vs ← Tree.values args
    Calculator.call s vs
  | .negative a => do
    let v ← a.value
    neg v
  | .positive a => a.value
  | .operation p a b => do
    let v ← a.value
    let w ← b.value
    p.apply v w

def Tree.values : List Tree → Except Fault (List Number)
  | [] => .ok []
  | a :: as => do
    let v ← a.value
    let vs ← Tree.values as
    .ok (v :: vs)

end

/-! ## Faults of form -/

/-- Not a fault of form. -/
def WellFormed {α : Type} (r : Except Fault α) : Prop := ∀ why, r ≠ .error (.malformed why)

namespace WellFormed

variable {α β : Type}

@[simp] theorem ok (a : α) : WellFormed (.ok a : Except Fault α) := nofun

@[simp] theorem pure (a : α) : WellFormed (Pure.pure a : Except Fault α) := nofun

@[simp] theorem error {e : Fault} :
    WellFormed (.error e : Except Fault α) ↔ ∀ why, e ≠ .malformed why := by
  simp [WellFormed]

theorem bind {x : Except Fault α} {f : α → Except Fault β} (hx : WellFormed x)
    (hf : ∀ a, x = .ok a → WellFormed (f a)) : WellFormed (x >>= f) := by
  cases x with
  | ok a => exact hf a rfl
  | error e => exact fun why h => hx why (by cases h; rfl)

theorem ite {p : Prop} [Decidable p] {x y : Except Fault α} (hx : WellFormed x)
    (hy : WellFormed y) : WellFormed (if p then x else y) := by
  split
  · exact hx
  · exact hy

theorem foldlM {f : β → α → Except Fault β} (hf : ∀ b a, WellFormed (f b a)) (as : List α)
    (b : β) : WellFormed (as.foldlM f b) := by
  induction as generalizing b with
  | nil => exact pure b
  | cons a as ih => exact bind (hf b a) fun c _ => ih c

end WellFormed

open WellFormed (bind ite)

theorem exact_wellFormed (n : Int) : WellFormed (exact n) := by
  unfold exact
  exact ite (.ok _) (by simp)

theorem float_wellFormed (x : Float) : WellFormed (float x) := .ok _

theorem finite_wellFormed (x : Float) : WellFormed (finite x) := by
  unfold finite
  exact ite (by simp) (ite (by simp) (.ok _))

theorem toInteger_wellFormed (x : Float) : WellFormed (toInteger x) := by
  unfold toInteger
  split
  · exact exact_wellFormed _
  · simp

theorem floatPower_wellFormed (b e : Float) : WellFormed (floatPower b e) := by
  unfold floatPower
  exact ite (by simp) (ite (by simp) (finite_wellFormed _))

theorem integerPower_wellFormed (b : Int) (e : Nat) : WellFormed (integerPower b e) := by
  unfold integerPower
  exact ite (exact_wellFormed _) (ite (.ok _) (ite (.ok _) (ite (.ok _) (by simp))))

theorem neg_wellFormed (v : Number) : WellFormed (neg v) := by
  cases v with
  | int n => exact exact_wellFormed _
  | float x => exact float_wellFormed _

theorem power_wellFormed (v w : Number) : WellFormed (power v w) := by
  unfold power
  split
  · exact ite (ite (integerPower_wellFormed _ _) (by simp)) (floatPower_wellFormed _ _)
  · exact floatPower_wellFormed _ _

theorem Operation.apply_wellFormed (p : Operation) (v w : Number) : WellFormed (p.apply v w) := by
  cases p with
  | add =>
      cases v <;> cases w <;> first | exact exact_wellFormed _ | exact float_wellFormed _
  | sub =>
      cases v <;> cases w <;> first | exact exact_wellFormed _ | exact float_wellFormed _
  | mul =>
      cases v <;> cases w <;> first | exact exact_wellFormed _ | exact float_wellFormed _
  | divide => exact ite (by simp) (float_wellFormed _)
  | floorDivide =>
      refine ite (by simp) ?_
      split
      · exact exact_wellFormed _
      · exact float_wellFormed _
  | modulo =>
      refine ite (by simp) ?_
      split
      · exact ite (by simp) (exact_wellFormed _)
      · exact float_wellFormed _
  | power => exact power_wellFormed v w

/-! Functions complain about their arguments, never about the form of an expression. -/

section Functions

variable (f : Function) (args : List Number)

theorem one_wellFormed : WellFormed (one f args) := by
  unfold one
  split <;> simp

theorem two_wellFormed : WellFormed (two f args) := by
  unfold two
  split <;> simp

theorem integer_wellFormed (v : Number) : WellFormed (integer f v) := by
  cases v <;> simp [integer]

theorem real_wellFormed (g : Float → Float) : WellFormed (real f g args) :=
  bind (one_wellFormed f args) fun _ _ => ite (by simp) (ite (by simp) (float_wellFormed _))

theorem ofPositive_wellFormed (g : Float → Float) : WellFormed (ofPositive f g args) :=
  bind (one_wellFormed f args) fun _ _ => ite (by simp) (float_wellFormed _)

theorem rounded_wellFormed (g : Float → Float) : WellFormed (rounded f g args) := by
  refine bind (one_wellFormed f args) fun v _ => ?_
  cases v with
  | int n => exact .ok _
  | float x => exact toInteger_wellFormed _

theorem absolute_wellFormed : WellFormed (absolute args) := by
  refine bind (one_wellFormed .abs args) fun v _ => ?_
  cases v with
  | int n => exact exact_wellFormed _
  | float x => exact float_wellFormed _

theorem round_wellFormed : WellFormed (round args) := by
  unfold round
  split
  · exact .ok _
  · exact toInteger_wellFormed _
  · refine bind (integer_wellFormed _ _) fun places _ => ?_
    split
    · exact ite (.ok _) (ite (toInteger_wellFormed _) (by simp))
    · exact ite (float_wellFormed _) (by simp)
  · simp

theorem best_wellFormed (better : Float → Float → Bool) : WellFormed (best f better args) := by
  cases args <;> simp [best]

theorem sum_wellFormed : WellFormed (sum args) :=
  WellFormed.foldlM (Operation.apply_wellFormed .add) args _

theorem logarithm_wellFormed : WellFormed (logarithm args) := by
  unfold logarithm
  split
  · exact ite (by simp) (float_wellFormed _)
  · exact ite (by simp) (ite (by simp) (ite (by simp) (float_wellFormed _)))
  · simp

theorem factorial_wellFormed : WellFormed (factorial args) :=
  bind (one_wellFormed .factorial args) fun v _ =>
    bind (integer_wellFormed .factorial v) fun _ _ =>
      ite (by simp) (ite (by simp) (exact_wellFormed _))

theorem greatestDivisor_wellFormed : WellFormed (greatestDivisor args) := by
  refine bind (WellFormed.foldlM (fun g v => ?_) args 0) fun _ _ => .ok _
  exact bind (integer_wellFormed .gcd v) fun _ _ => ite (.ok _) (by simp)

theorem apply_wellFormed : WellFormed (apply f args) := by
  cases f with
  | abs => exact absolute_wellFormed args
  | round => exact round_wellFormed args
  | min | max =>
      rw [apply]
      exact best_wellFormed _ args _
  | sum => exact sum_wellFormed args
  | pow => exact bind (two_wellFormed .pow args) fun _ _ => power_wellFormed _ _
  | atan2 => exact bind (two_wellFormed .atan2 args) fun _ _ => float_wellFormed _
  | atanh =>
      exact bind (one_wellFormed .atanh args) fun _ _ => ite (by simp) (float_wellFormed _)
  | log => exact logarithm_wellFormed args
  | log10 | log2 => exact ofPositive_wellFormed _ args _
  | ceil | floor => exact rounded_wellFormed _ args _
  | factorial => exact factorial_wellFormed args
  | gcd => exact greatestDivisor_wellFormed args
  | sin | cos | tan | asin | acos | atan | sinh | cosh | tanh | asinh | acosh | exp | sqrt
  | degrees | radians =>
      rw [apply]
      exact real_wellFormed _ args _

end Functions

theorem call_wellFormed (s : String) (args : List Number) : WellFormed (call s args) := by
  unfold call
  dsimp only
  split
  · exact apply_wellFormed _ args
  · split <;> simp

theorem valueOf_wellFormed (s : String) : WellFormed (valueOf s) := by
  unfold valueOf
  dsimp only
  split
  · exact float_wellFormed _
  · split <;> simp

mutual

theorem Tree.value_wellFormed : ∀ t : Tree, WellFormed t.value
  | .number _ => .ok _
  | .name s => valueOf_wellFormed s
  | .call s args => by
      rw [Tree.value]
      exact bind (Tree.values_wellFormed args) fun vs _ => call_wellFormed s vs
  | .negative a => by
      rw [Tree.value]
      exact bind a.value_wellFormed fun v _ => neg_wellFormed v
  | .positive a => by
      rw [Tree.value]
      exact a.value_wellFormed
  | .operation p a b => by
      rw [Tree.value]
      exact bind a.value_wellFormed fun v _ =>
        bind b.value_wellFormed fun w _ => p.apply_wellFormed v w

theorem Tree.values_wellFormed : ∀ as : List Tree, WellFormed (Tree.values as)
  | [] => .ok _
  | a :: as => by
      rw [Tree.values]
      exact bind a.value_wellFormed fun _ _ => bind (Tree.values_wellFormed as) fun _ _ => .ok _

end

/-! ## Grammar -/

/-- The parts of an expression. -/
inductive Part where
  | expression | term | operand | power | primary
  deriving DecidableEq, Repr

/-- An operator and what stands to its right. -/
structure Link where
  operation : Operation
  tokens : List Token
  tree : Tree

/-- Operators of one rank are carried out from left to right. -/
def Tree.grow (a : Tree) (links : List Link) : Tree :=
  links.foldl (fun a l => .operation l.operation a l.tree) a

def Link.text (l : Link) : List Token := l.operation.token :: l.tokens

/-- Some tokens make up a part of an expression, with the given syntax tree; at most so many
operands stand inside each other. -/
inductive Derives : Part → Nat → List Token → Tree → Prop
  | expression {d ts a links} (first : Derives .term d ts a)
      (ranks : ∀ l ∈ links, l.operation ∈ Operation.additive)
      (rest : ∀ l ∈ links, Derives .term d l.tokens l.tree) :
      Derives .expression d (ts ++ links.flatMap Link.text) (a.grow links)
  | term {d ts a links} (first : Derives .operand d ts a)
      (ranks : ∀ l ∈ links, l.operation ∈ Operation.multiplicative)
      (rest : ∀ l ∈ links, Derives .operand d l.tokens l.tree) :
      Derives .term d (ts ++ links.flatMap Link.text) (a.grow links)
  | positive {d ts a} (h : Derives .operand d ts a) :
      Derives .operand (d + 1) (.plus :: ts) (.positive a)
  | negative {d ts a} (h : Derives .operand d ts a) :
      Derives .operand (d + 1) (.minus :: ts) (.negative a)
  | operand {d ts a} (h : Derives .power d ts a) : Derives .operand (d + 1) ts a
  | power {d ts a} (h : Derives .primary d ts a) : Derives .power d ts a
  | raised {d ts us a b} (h : Derives .primary d ts a) (exponent : Derives .operand d us b) :
      Derives .power d (ts ++ .doubleStar :: us) (.operation .power a b)
  | number {d n} : Derives .primary d [.number n] (.number n)
  | name {d s} : Derives .primary d [.name s] (.name s)
  | call {d s} {args : List (List Token × Tree)}
      (h : ∀ a ∈ args, Derives .expression d a.1 a.2) :
      Derives .primary d
        (.name s :: .openParen :: [Token.comma].intercalate (args.map (·.1)) ++ [.closeParen])
        (.call s (args.map (·.2)))
  | group {d ts a} (h : Derives .expression d ts a) :
      Derives .primary d (.openParen :: ts ++ [.closeParen]) a

/-- Which tokens would go on with a part. -/
def Part.extenders : Part → List Token
  | .primary => [.openParen]
  | .operand | .power => [.openParen, .doubleStar]
  | .term => [.openParen, .doubleStar] ++ Operation.multiplicative.map (·.token)
  | .expression =>
    [.openParen, .doubleStar] ++ (Operation.multiplicative ++ Operation.additive).map (·.token)

/-- A part is over before these tokens. -/
def Part.Ends (q : Part) (ts : List Token) : Prop := ∀ t ∈ ts.head?, t ∉ q.extenders

theorem Part.ends_nil (q : Part) : q.Ends [] := nofun

theorem Part.ends_cons {q : Part} {t : Token} {ts : List Token} :
    q.Ends (t :: ts) ↔ t ∉ q.extenders := by
  simp [Ends]

theorem Part.Ends.mono {q q' : Part} {ts : List Token} (h : q'.Ends ts)
    (hq : q.extenders ⊆ q'.extenders) : q.Ends ts :=
  fun t ht hmem => h t ht (hq hmem)

/-- Some operations link parts `q` to parts `q'`: their operators end the one and go on with the
other. -/
structure Operation.Links (ops : List Operation) (q q' : Part) : Prop where
  subset : q.extenders ⊆ q'.extenders
  not_mem : ∀ p ∈ ops, p.token ∉ q.extenders
  mem : ∀ p ∈ ops, p.token ∈ q'.extenders

theorem Operation.additive_links : Links additive .term .expression := by
  constructor <;> decide

theorem Operation.multiplicative_links : Links multiplicative .operand .term := by
  constructor <;> decide

/-! ## One tree at most -/

section Separated

variable {α : Type} {token : α → Token} {tokens : α → List Token} {q : Part}

theorem Part.Ends.separated {xs : List α} {r : List Token} (hr : q.Ends r)
    (hxs : ∀ x ∈ xs, token x ∉ q.extenders) :
    q.Ends (xs.flatMap (fun x => token x :: tokens x) ++ r) := by
  cases xs with
  | nil => exact hr
  | cons x xs =>
      intro t ht
      cases ht
      exact hxs x List.mem_cons_self

/-- Where a separator tells which part follows it, parts behind separators are found again. -/
theorem separated_unique {xs ys : List α} {r r' : List Token} (hr : q.Ends r) (hr' : q.Ends r')
    (hxs : ∀ x ∈ xs, token x ∉ q.extenders ∧ r'.head? ≠ some (token x))
    (hys : ∀ y ∈ ys, token y ∉ q.extenders ∧ r.head? ≠ some (token y))
    (hone : ∀ x ∈ xs, ∀ y ∈ ys, ∀ u u', q.Ends u → q.Ends u' → token x = token y →
      tokens x ++ u = tokens y ++ u' → x = y)
    (h : xs.flatMap (fun x => token x :: tokens x) ++ r =
      ys.flatMap (fun y => token y :: tokens y) ++ r') :
    xs = ys := by
  induction xs generalizing ys with
  | nil =>
      cases ys with
      | nil => rfl
      | cons y ys =>
          refine absurd ?_ (hys y List.mem_cons_self).2
          rw [List.flatMap_nil, List.nil_append] at h
          rw [h]
          rfl
  | cons x xs ih =>
      cases ys with
      | nil =>
          refine absurd ?_ (hxs x List.mem_cons_self).2
          rw [List.flatMap_nil, List.nil_append] at h
          rw [← h]
          rfl
      | cons y ys =>
          simp only [List.flatMap_cons, List.cons_append, List.append_assoc,
            List.cons.injEq] at h
          obtain ⟨htoken, h⟩ := h
          have hxs' := fun x hx => hxs x (List.mem_cons_of_mem _ hx)
          have hys' := fun y hy => hys y (List.mem_cons_of_mem _ hy)
          have hxy : x = y :=
            hone x List.mem_cons_self y List.mem_cons_self _ _
              (hr.separated fun x hx => (hxs' x hx).1) (hr'.separated fun y hy => (hys' y hy).1)
              htoken h
          subst hxy
          rw [ih hxs' hys' (fun x hx y hy => hone x (List.mem_cons_of_mem _ hx) y
            (List.mem_cons_of_mem _ hy)) (List.append_cancel_left h)]

end Separated

theorem intercalate_cons (t : Token) (ts : List Token) (tss : List (List Token)) :
    [t].intercalate (ts :: tss) = ts ++ tss.flatMap (t :: ·) := by
  induction tss generalizing ts with
  | nil => simp
  | cons us tss ih => rw [List.intercalate_cons_cons, ih, List.flatMap_cons]; simp

/-- Begins the way parts do. -/
def Begins (q : Part) (ts : List Token) : Prop :=
  ∃ t us, ts = t :: us ∧ t ≠ .closeParen ∧ (q = .power ∨ q = .primary → t ≠ .plus ∧ t ≠ .minus)

theorem Derives.begins {q : Part} {d : Nat} {ts : List Token} {a : Tree} (h : Derives q d ts a) :
    Begins q ts := by
  induction h with
  | expression _ _ _ ih | term _ _ _ ih =>
      obtain ⟨t, us, rfl, ht, -⟩ := ih
      exact ⟨t, _, rfl, ht, by simp⟩
  | positive | negative => exact ⟨_, _, rfl, by simp, by simp⟩
  | operand _ ih =>
      obtain ⟨t, us, rfl, ht, -⟩ := ih
      exact ⟨t, us, rfl, ht, by simp⟩
  | power _ ih =>
      obtain ⟨t, us, rfl, ht, hsign⟩ := ih
      exact ⟨t, us, rfl, ht, fun _ => hsign (.inr rfl)⟩
  | raised _ _ ih =>
      obtain ⟨t, us, rfl, ht, hsign⟩ := ih
      exact ⟨t, _, rfl, ht, fun _ => hsign (.inr rfl)⟩
  | number | name | call | group => exact ⟨_, _, rfl, by simp, by simp⟩

theorem Link.ext_token {l m : Link} (h : l.operation.token = m.operation.token)
    (htokens : l.tokens = m.tokens) (htree : l.tree = m.tree) : l = m := by
  cases l
  cases m
  cases Operation.token_inj h
  cases htokens
  cases htree
  rfl

/-- Two parts read the same tokens as the same tree, wherever they begin the same tokens. -/
def Agree (q : Part) (ts ts' : List Token) (a a' : Tree) : Prop :=
  ∀ r r', q.Ends r → q.Ends r' → ts ++ r = ts' ++ r' → ts = ts' ∧ a = a'

theorem Agree.chain {q q' : Part} {ops : List Operation} {ts ts' : List Token} {a a' : Tree}
    {links links' : List Link} (h : Agree q ts ts' a a') (hops : Operation.Links ops q q')
    (ranks : ∀ l ∈ links, l.operation ∈ ops) (ranks' : ∀ l ∈ links', l.operation ∈ ops)
    (hlinks : ∀ l ∈ links, ∀ m ∈ links', Agree q l.tokens m.tokens l.tree m.tree) :
    Agree q' (ts ++ links.flatMap Link.text) (ts' ++ links'.flatMap Link.text) (a.grow links)
      (a'.grow links') := by
  intro r r' hr hr' he
  have hrq := hr.mono hops.subset
  have hrq' := hr'.mono hops.subset
  have hne {u : List Token} (hu : q'.Ends u) {p : Operation} (hp : p ∈ ops) :
      u.head? ≠ some p.token := fun he => hu _ he (hops.mem p hp)
  rw [List.append_assoc, List.append_assoc] at he
  obtain ⟨rfl, rfl⟩ := h _ _ (hrq.separated fun l hl => hops.not_mem _ (ranks l hl))
    (hrq'.separated fun l hl => hops.not_mem _ (ranks' l hl)) he
  have hsame : links = links' :=
    separated_unique hrq hrq'
      (fun l hl => ⟨hops.not_mem _ (ranks l hl), hne hr' (ranks l hl)⟩)
      (fun l hl => ⟨hops.not_mem _ (ranks' l hl), hne hr (ranks' l hl)⟩)
      (fun l hl m hm u u' hu hu' htoken he => by
        obtain ⟨htokens, htree⟩ := hlinks l hl m hm u u' hu hu' he
        exact Link.ext_token htoken htokens htree)
      (List.append_cancel_left he)
  rw [hsame]
  exact ⟨rfl, rfl⟩

/-- Arguments up to the closing parenthesis are found again. -/
theorem arguments_unique {args args' : List (List Token × Tree)} {r r' : List Token}
    (h : ∀ a ∈ args, Begins .expression a.1) (h' : ∀ a ∈ args', Begins .expression a.1)
    (hagree : ∀ a ∈ args, ∀ b ∈ args', Agree .expression a.1 b.1 a.2 b.2)
    (he : [Token.comma].intercalate (args.map (·.1)) ++ .closeParen :: r =
      [Token.comma].intercalate (args'.map (·.1)) ++ .closeParen :: r') :
    args = args' := by
  have hclose (u : List Token) : Part.expression.Ends (.closeParen :: u) :=
    Part.ends_cons.mpr (by decide)
  have hcomma : Token.comma ∉ Part.expression.extenders := by decide
  cases args with
  | nil =>
      cases args' with
      | nil => rfl
      | cons b args' =>
          obtain ⟨t, us, hb, ht, -⟩ := h' b List.mem_cons_self
          rw [List.map_cons, intercalate_cons, hb] at he
          exact absurd (List.cons.inj he).1.symm ht
  | cons a args =>
      cases args' with
      | nil =>
          obtain ⟨t, us, ha, ht, -⟩ := h a List.mem_cons_self
          rw [List.map_cons, intercalate_cons, ha] at he
          exact absurd (List.cons.inj he).1 ht
      | cons b args' =>
          simp only [List.map_cons, intercalate_cons, List.flatMap_map, List.append_assoc] at he
          obtain ⟨h1, h2⟩ := hagree a List.mem_cons_self b List.mem_cons_self _ _
            ((hclose r).separated fun _ _ => hcomma) ((hclose r').separated fun _ _ => hcomma) he
          rw [h1] at he
          have htail : args = args' :=
            separated_unique (hclose r) (hclose r') (fun _ _ => ⟨hcomma, by simp⟩)
              (fun _ _ => ⟨hcomma, by simp⟩)
              (fun x hx y hy u u' hu hu' _ he => by
                obtain ⟨htokens, htree⟩ := hagree x (List.mem_cons_of_mem _ hx) y
                  (List.mem_cons_of_mem _ hy) u u' hu hu' he
                exact Prod.ext htokens htree)
              (List.append_cancel_left he)
          rw [htail, Prod.ext h1 h2]

/-- Tokens that begin with a part do so in one way. -/
theorem Derives.agree {q : Part} {d : Nat} {ts : List Token} {a : Tree} (h : Derives q d ts a)
    {d' : Nat} {ts' : List Token} {a' : Tree} (h' : Derives q d' ts' a') : Agree q ts ts' a a' := by
  induction h generalizing d' ts' a' with
  | expression _ ranks _ ih ihrest =>
      cases h' with
      | expression first' ranks' rest' =>
          exact (ih first').chain Operation.additive_links ranks ranks'
            fun l hl m hm => ihrest l hl (rest' m hm)
  | term _ ranks _ ih ihrest =>
      cases h' with
      | term first' ranks' rest' =>
          exact (ih first').chain Operation.multiplicative_links ranks ranks'
            fun l hl m hm => ihrest l hl (rest' m hm)
  | positive _ ih =>
      intro r r' hr hr' he
      cases h' with
      | positive h' =>
          obtain ⟨rfl, rfl⟩ := ih h' r r' hr hr' (List.cons.inj he).2
          exact ⟨rfl, rfl⟩
      | negative h' => cases (List.cons.inj he).1
      | operand h' =>
          obtain ⟨t, us, rfl, -, hsign⟩ := h'.begins
          exact absurd (List.cons.inj he).1.symm (hsign (.inl rfl)).1
  | negative _ ih =>
      intro r r' hr hr' he
      cases h' with
      | positive h' => cases (List.cons.inj he).1
      | negative h' =>
          obtain ⟨rfl, rfl⟩ := ih h' r r' hr hr' (List.cons.inj he).2
          exact ⟨rfl, rfl⟩
      | operand h' =>
          obtain ⟨t, us, rfl, -, hsign⟩ := h'.begins
          exact absurd (List.cons.inj he).1.symm (hsign (.inl rfl)).2
  | operand h ih =>
      intro r r' hr hr' he
      obtain ⟨t, us, rfl, -, hsign⟩ := h.begins
      cases h' with
      | positive h' => exact absurd (List.cons.inj he).1 (hsign (.inl rfl)).1
      | negative h' => exact absurd (List.cons.inj he).1 (hsign (.inl rfl)).2
      | operand h' => exact ih h' r r' hr hr' he
  | power _ ih =>
      intro r r' hr hr' he
      have hsub : Part.primary.extenders ⊆ Part.power.extenders := by decide
      cases h' with
      | power h' => exact ih h' r r' (hr.mono hsub) (hr'.mono hsub) he
      | raised h' exponent' =>
          rw [List.append_assoc] at he
          obtain ⟨rfl, -⟩ := ih h' _ _ (hr.mono hsub) (Part.ends_cons.mpr (by decide)) he
          rw [List.append_cancel_left he] at hr
          exact absurd (Part.ends_cons.mp hr) (by decide)
  | raised _ _ ih ihexponent =>
      intro r r' hr hr' he
      have hsub : Part.primary.extenders ⊆ Part.power.extenders := by decide
      rw [List.append_assoc] at he
      cases h' with
      | power h' =>
          obtain ⟨rfl, -⟩ := ih h' _ _ (Part.ends_cons.mpr (by decide)) (hr'.mono hsub) he
          rw [← List.append_cancel_left he] at hr'
          exact absurd (Part.ends_cons.mp hr') (by decide)
      | raised h' exponent' =>
          rw [List.append_assoc] at he
          obtain ⟨rfl, rfl⟩ := ih h' _ _ (Part.ends_cons.mpr (by decide))
            (Part.ends_cons.mpr (by decide)) he
          have he := (List.cons.inj (List.append_cancel_left he)).2
          obtain ⟨rfl, rfl⟩ := ihexponent exponent' r r' hr hr' he
          exact ⟨rfl, rfl⟩
  | number =>
      intro r r' _ _ he
      cases h' with
      | number =>
          cases (List.cons.inj he).1
          exact ⟨rfl, rfl⟩
      | name | call | group => cases (List.cons.inj he).1
  | name =>
      intro r r' hr _ he
      cases h' with
      | number | group => cases (List.cons.inj he).1
      | name =>
          cases (List.cons.inj he).1
          exact ⟨rfl, rfl⟩
      | call =>
          simp only [List.cons_append, List.nil_append, List.cons.injEq] at he
          rw [he.2] at hr
          exact absurd (Part.ends_cons.mp hr) (by decide)
  | call h ih =>
      intro r r' hr hr' he
      cases h' with
      | number | group => cases (List.cons.inj he).1
      | name =>
          simp only [List.cons_append, List.nil_append, List.cons.injEq] at he
          rw [← he.2] at hr'
          exact absurd (Part.ends_cons.mp hr') (by decide)
      | call h' =>
          simp only [List.cons_append, List.append_assoc, List.nil_append, List.cons.injEq,
            Token.name.injEq, true_and] at he
          obtain ⟨rfl, he⟩ := he
          rw [arguments_unique (fun a ha => (h a ha).begins) (fun a ha => (h' a ha).begins)
            (fun a ha b hb => ih a ha (h' b hb)) he]
          exact ⟨rfl, rfl⟩
  | group _ ih =>
      intro r r' _ _ he
      cases h' with
      | number | name | call => cases (List.cons.inj he).1
      | group h' =>
          simp only [List.cons_append, List.append_assoc, List.nil_append, List.cons.injEq,
            true_and] at he
          obtain ⟨rfl, rfl⟩ := ih h' _ _ (Part.ends_cons.mpr (by decide))
            (Part.ends_cons.mpr (by decide)) he
          exact ⟨rfl, rfl⟩

end ChatAgent.Calculator

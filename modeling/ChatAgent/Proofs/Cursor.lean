import ChatAgent.Proofs.IndexedLexer

/-!
# Evaluation with a cursor

An expression is evaluated with a cursor in its tokens and a count of the operands that are open.
What would be a crash has no outcome: a look outside the text, an unchecked operation that leaves
the words, a count below zero. Neither has what would not end soon: a loop or a recursion beyond its
limits. No text brings any of this about (`Machine.evaluate_completes`).
-/

namespace ChatAgent.Calculator.Machine

/-- The next token, and how many operands are open. -/
structure Cursor where
  pos : Nat
  depth : Nat

/-- Moves the cursor, and gives a value or a fault. Without an outcome it has crashed. -/
def Action (α : Type) : Type := Cursor → Option (Except Fault α × Cursor)

instance : Monad Action where
  pure a := fun c => some (.ok a, c)
  bind m f := fun c =>
    match m c with
    | none => none
    | some (.error e, c) => some (.error e, c)
    | some (.ok a, c) => f a c

def crash {α : Type} : Action α := fun _ => none

def fail {α : Type} (e : Fault) : Action α := fun c => some (.error e, c)

/-- An operation on numbers. -/
def carryOut (r : Option Result) : Action Number := fun c => r.map (·, c)

/-- Opens an operand and closes it again, also after a fault in it. -/
def opened {α : Type} (body : Action α) : Action α := fun c =>
  if maxDepth < c.depth + 1 then
    some (.error (.malformed .tooDeep), { c with depth := c.depth + 1 })
  else do
    let (v, c) ← body { c with depth := c.depth + 1 }
    if c.depth = 0 then none else some (v, { c with depth := c.depth - 1 })

section Tokens

variable (ts : List Token)

def peek : Action (Option Token) := fun c => some (.ok ts[c.pos]?, c)

/-- Goes on by one token, at most to behind the end. -/
def advance : Action Unit := fun c =>
  if c.pos ≤ ts.length then some (.ok (), { c with pos := c.pos + 1 }) else none

def next : Action (Option Token) := do
  let t ← peek ts
  advance ts
  return t

/-- Takes a token if it follows. -/
def eat (t : Token) : Action Bool := do
  if (← peek ts) = some t then
    advance ts
    return true
  else return false

def expect (t : Token) : Action Unit := do
  match ← next ts with
  | some found => if found = t then return () else fail (.malformed (.expected t (some found)))
  | none => fail (.malformed (.expected t none))

/-- The operations between terms. -/
def additive? : Token → Option (Number → Number → Option Result)
  | .plus => some fun v w => some (add v w)
  | .minus => some fun v w => some (sub v w)
  | _ => none

/-- The operations between operands. -/
def multiplicative? : Token → Option (Number → Number → Option Result)
  | .star => some fun v w => some (mul v w)
  | .slash => some fun v w => some (divide v w)
  | .doubleSlash => some floorDivide
  | .percent => some modulo
  | _ => none

/-- Carries operations of one rank out as long as there are any. -/
def chain (operation? : Token → Option (Number → Number → Option Result))
    (operand : Action Number) : Nat → Number → Action Number
  | 0, _ => crash
  | rounds + 1, v => do
    match (← peek ts).bind operation? with
    | none => return v
    | some op => do
      advance ts
      let w ← operand
      let v ← carryOut (op v w)
      chain operation? operand rounds v

variable (limits : Limits)

section Levels

variable (operand : Action Number)

def term : Action Number := do
  let v ← operand
  chain ts multiplicative? operand limits.rounds v

def expression : Action Number := do
  let v ← term ts limits operand
  chain ts additive? (term ts limits operand) limits.rounds v

/-- The arguments of a call that are left, behind those that are known. -/
def moreArguments : Nat → List Number → Action (List Number)
  | 0, _ => crash
  | rounds + 1, args => do
    let v ← expression ts limits operand
    if ← eat ts .comma then moreArguments rounds (args ++ [v])
    else do
      expect ts .closeParen
      return args ++ [v]

def arguments : Action (List Number) := do
  if ← eat ts .closeParen then return [] else moreArguments ts limits operand limits.rounds []

def primary : Action Number := do
  match ← next ts with
  | some (.number n) => return n
  | some .openParen => do
    let v ← expression ts limits operand
    expect ts .closeParen
    return v
  | some (.name s) => do
    if ← eat ts .openParen then do
      let args ← arguments ts limits operand
      carryOut (call limits s args)
    else carryOut (some (valueOf s))
  | some t => fail (.malformed (.unexpected t))
  | none => fail (.malformed .ended)

def powered : Action Number := do
  let b ← primary ts limits operand
  if ← eat ts .doubleStar then do
    let e ← operand
    carryOut (some (power b e))
  else return b

def signed : Action Number := do
  if ← eat ts .minus then do
    let v ← operand
    carryOut (some (neg v))
  else if ← eat ts .plus then operand
  else powered ts limits operand

end Levels

/-- An operand, with so many levels of operands in it. -/
def operand : Nat → Action Number
  | 0 => opened crash
  | levels + 1 => opened (signed ts limits (operand levels))

def evaluateTokens : Action Number := do
  let v ← expression ts limits (operand ts limits limits.levels)
  match ← peek ts with
  | none => return v
  | some t => fail (.malformed (.unexpected t))

end Tokens

/-- The value of an expression. -/
def evaluate (limits : Limits) (s : String) : Option Result := do
  match ← ofText limits.rounds s with
  | .error e => some (.error e)
  | .ok ts => do
    let (result, _) ← evaluateTokens ts limits ⟨0, 0⟩
    some result

/-! ## Actions and readings -/

/-- From a cursor on, an action gives what a reading of the rest gives, and ends where the reading
ends, with as many open operands. After a fault there may be more of them. -/
inductive Follows {α : Type} (ts : List Token) (P : α → Prop) (m : Action α) (c : Cursor) :
    Except Fault (α × List Token) → Prop
  | ok {v pos rest} (hv : P v) (hpos : c.pos ≤ pos) (hat : At ts pos rest)
      (h : m c = some (.ok v, ⟨pos, c.depth⟩)) : Follows ts P m c (.ok (v, rest))
  | error {e d} (hdepth : c.depth ≤ d.depth) (h : m c = some (.error e, d)) :
      Follows ts P m c (.error e)

namespace Follows

variable {α β : Type} {ts : List Token} {P : α → Prop} {Q : β → Prop} {c : Cursor}

/-- What an action does that goes on as another one does from further behind. -/
theorem later {m : Action α} {m' : Action α} {pos : Nat} {r : Except Fault (α × List Token)}
    (h : Follows ts P m' ⟨pos, c.depth⟩ r) (hpos : c.pos ≤ pos) (he : m c = m' ⟨pos, c.depth⟩) :
    Follows ts P m c r := by
  cases h with
  | ok hv hpos' hat h => exact .ok hv (Nat.le_trans hpos hpos') hat (he.trans h)
  | error hdepth h => exact .error hdepth (he.trans h)

theorem pure {v : α} {rest : List Token} (hv : P v) (hat : At ts c.pos rest) :
    Follows ts P (Pure.pure v) c (.ok (v, rest)) :=
  .ok hv (Nat.le_refl _) hat rfl

theorem fail (e : Fault) : Follows ts P (fail e) c (.error e) := .error (Nat.le_refl _) rfl

theorem bind {m : Action α} {f : α → Action β} {r : Except Fault (α × List Token)}
    {g : α × List Token → Except Fault (β × List Token)} (h : Follows ts P m c r)
    (hf : ∀ v pos rest, P v → c.pos ≤ pos → At ts pos rest →
      Follows ts Q (f v) ⟨pos, c.depth⟩ (g (v, rest))) :
    Follows ts Q (m >>= f) c (r >>= g) := by
  cases h with
  | @ok v pos rest hv hpos hat h =>
      exact later (hf v pos rest hv hpos hat) hpos (by simp only [Bind.bind, h])
  | error hdepth h => exact .error hdepth (by simp only [Bind.bind, h])

theorem carryOut {r : Result} {rest : List Token} (hr : Yields Fits r) (hat : At ts c.pos rest) :
    Follows ts Fits (carryOut (some r)) c (do
      let v ← r
      .ok (v, rest)) := by
  cases r with
  | ok v => exact .ok (hr v rfl) (Nat.le_refl _) hat rfl
  | error e => exact .error (Nat.le_refl _) rfl

/-- After an operation on numbers a reading goes on where it was. -/
theorem carryOut_bind {r : Result} {f : Number → Action β}
    {g : Number → Except Fault (β × List Token)} (hr : Yields Fits r)
    (hf : ∀ v, Fits v → Follows ts Q (f v) c (g v)) :
    Follows ts Q (Machine.carryOut (some r) >>= f) c (r >>= g) := by
  cases r with
  | ok v => exact later (hf v (hr v rfl)) (Nat.le_refl _) rfl
  | error e => exact .error (Nat.le_refl _) rfl

section Tokens

variable {f : Bool → Action β} {t : Token} {rest : List Token}
  {r : Except Fault (β × List Token)}

theorem peek {f : Option Token → Action β} (hat : At ts c.pos rest)
    (h : Follows ts Q (f rest.head?) c r) : Follows ts Q (peek ts >>= f) c r := by
  rw [← hat.get] at h
  exact later h (Nat.le_refl _) rfl

theorem advance {f : Unit → Action β} (hat : At ts c.pos (t :: rest))
    (h : Follows ts Q (f ()) ⟨c.pos + 1, c.depth⟩ r) : Follows ts Q (advance ts >>= f) c r := by
  refine later h (Nat.le_succ _) ?_
  simp only [Bind.bind, Machine.advance, if_pos hat.le]

theorem next {f : Option Token → Action β} (hat : At ts c.pos rest)
    (h : Follows ts Q (f rest.head?) ⟨c.pos + 1, c.depth⟩ r) :
    Follows ts Q (next ts >>= f) c r := by
  have hle := hat.le
  refine later h (Nat.le_succ _) ?_
  simp [Bind.bind, Pure.pure, Machine.next, Machine.peek, Machine.advance, hat.get, hle]

theorem eat_of_head (hat : At ts c.pos (t :: rest))
    (h : Follows ts Q (f true) ⟨c.pos + 1, c.depth⟩ r) : Follows ts Q (eat ts t >>= f) c r := by
  have hle := hat.le
  refine later h (Nat.le_succ _) ?_
  simp [Bind.bind, Pure.pure, Machine.eat, Machine.peek, Machine.advance, hat.get, hle]

theorem eat_of_not_head (hat : At ts c.pos rest) (ht : rest.head? ≠ some t)
    (h : Follows ts Q (f false) c r) : Follows ts Q (eat ts t >>= f) c r := by
  refine later h (Nat.le_refl _) ?_
  simp [Bind.bind, Pure.pure, Machine.eat, Machine.peek, hat.get, ht]

theorem expect {f : Unit → Action β} {g : List Token → Except Fault (β × List Token)}
    (hat : At ts c.pos rest)
    (h : ∀ rest', At ts (c.pos + 1) rest' → Follows ts Q (f ()) ⟨c.pos + 1, c.depth⟩ (g rest')) :
    Follows ts Q (expect ts t >>= f) c (Calculator.expect t rest >>= g) := by
  have hle := hat.le
  cases rest with
  | nil =>
      refine .error (d := ⟨c.pos + 1, c.depth⟩) (Nat.le_refl _) ?_
      simp [Bind.bind, Pure.pure, Machine.expect, Machine.next, Machine.peek, Machine.advance,
        Machine.fail, hat.get, hle]
  | cons u rest =>
      by_cases hu : u = t
      · rw [Calculator.expect, if_pos hu]
        refine later (h rest hat.next) (Nat.le_succ _) ?_
        simp [Bind.bind, Pure.pure, Machine.expect, Machine.next, Machine.peek, Machine.advance,
          hat.get, hle, hu]
      · rw [Calculator.expect, if_neg hu]
        refine .error (d := ⟨c.pos + 1, c.depth⟩) (Nat.le_refl _) ?_
        simp [Bind.bind, Pure.pure, Machine.expect, Machine.next, Machine.peek, Machine.advance,
          Machine.fail, hat.get, hle, hu]

end Tokens

end Follows

/-! ## Parts of an expression -/

/-- Wherever it begins, an action follows a reading of the rest. -/
def Reads {α : Type} (ts : List Token) (P : α → Prop) (depth : Nat) (m : Action α)
    (read : List Token → Except Fault (α × List Token)) : Prop :=
  ∀ pos rest, At ts pos rest → Follows ts P m ⟨pos, depth⟩ (read rest)

/-- The operations of a rank are carried out without a crash. -/
def Safe (operation? : Token → Option (Number → Number → Result))
    (unchecked? : Token → Option (Number → Number → Option Result)) : Prop :=
  ∀ t, (operation? t = none ∧ unchecked? t = none) ∨
    ∃ op op', operation? t = some op ∧ unchecked? t = some op' ∧
      ∀ v w, Fits v → Fits w → op' v w = some (op v w) ∧ Yields Fits (op v w)

theorem safe_additive : Safe Calculator.additive? additive? := by
  intro t
  cases t with
  | plus => exact .inr ⟨_, _, rfl, rfl, fun v w _ _ => ⟨rfl, Operation.add.apply_fits v w⟩⟩
  | minus => exact .inr ⟨_, _, rfl, rfl, fun v w _ _ => ⟨rfl, Operation.sub.apply_fits v w⟩⟩
  | _ => exact .inl ⟨rfl, rfl⟩

theorem safe_multiplicative : Safe Calculator.multiplicative? multiplicative? := by
  intro t
  cases t with
  | star => exact .inr ⟨_, _, rfl, rfl, fun v w _ _ => ⟨rfl, Operation.mul.apply_fits v w⟩⟩
  | slash => exact .inr ⟨_, _, rfl, rfl, fun v w _ _ => ⟨rfl, Operation.divide.apply_fits v w⟩⟩
  | doubleSlash =>
      exact .inr ⟨_, _, rfl, rfl, fun v w hv _ =>
        ⟨floorDivide_eq hv, Operation.floorDivide.apply_fits v w⟩⟩
  | percent =>
      exact .inr ⟨_, _, rfl, rfl, fun v w _ hw =>
        ⟨modulo_eq hw, Operation.modulo.apply_fits v w⟩⟩
  | _ => exact .inl ⟨rfl, rfl⟩

variable {ts : List Token} {depth : Nat} {operand : Action Number} {read : List Token → Reading}

theorem chain_follows {operation? : Token → Option (Number → Number → Result)}
    {unchecked? : Token → Option (Number → Number → Option Result)}
    (hsafe : Safe operation? unchecked?) (h : Reads ts Fits depth operand read) {rounds left : Nat}
    {v : Number} {pos : Nat} {rest : List Token} (hv : Fits v) (hat : At ts pos rest)
    (hrounds : rest.length < rounds) (hleft : rest.length ≤ left) :
    Follows ts Fits (chain ts unchecked? operand rounds v) ⟨pos, depth⟩
      (Calculator.chain operation? read left v rest) := by
  -- an operand and the operator before it make the rest shorter, so the rounds outlast it
  induction rounds generalizing v pos rest left with
  | zero => omega
  | succ rounds ih =>
      rw [chain]
      refine .peek hat ?_
      cases rest with
      | nil =>
          have hread : Calculator.chain operation? read left v [] = .ok (v, []) := by
            cases left <;> rfl
          rw [hread]
          exact .pure hv hat
      | cons t rest =>
          obtain ⟨left, rfl⟩ : ∃ n, left = n + 1 := ⟨left - 1, by simp at hleft; omega⟩
          rw [Calculator.chain]
          simp only [List.head?_cons, Option.bind_some]
          rcases hsafe t with ⟨hnone, hnone'⟩ | ⟨op, op', hop, hop', hsafe⟩
          · rw [hnone, hnone']
            exact .pure hv hat
          · rw [hop, hop']
            refine .advance hat (.bind (h _ _ hat.next) fun w pos' rest' hw hpos hat' => ?_)
            obtain ⟨hword, hfits⟩ := hsafe v w hv hw
            have hshorter : rest'.length ≤ rest.length := by
              have hlength := hat.next.length
              have hlength' := hat'.length
              simp only at hpos
              omega
            simp only [hword]
            refine .carryOut_bind hfits fun v' hv' => ih hv' hat' ?_ ?_
            · simp only [List.length_cons] at hrounds
              omega
            · simp only [List.length_cons] at hleft
              omega

/-- The limits are high enough for these tokens, and their numbers fit. -/
structure Suit (limits : Limits) (ts : List Token) : Prop where
  rounds : ts.length < limits.rounds
  divisions : 128 ≤ limits.divisions
  products : 20 ≤ limits.products
  fits : ∀ n, .number n ∈ ts → Fits n

variable {limits : Limits} (hlimits : Suit limits ts) (h : Reads ts Fits depth operand read)

include hlimits h

theorem term_reads : Reads ts Fits depth (term ts limits operand) (Calculator.term read) := by
  intro pos rest hat
  refine .bind (h pos rest hat) fun v pos' rest' hv _ hat' => ?_
  have hlength := hat'.length
  have hrounds := hlimits.rounds
  exact chain_follows safe_multiplicative h hv hat' (by omega) (Nat.le_refl _)

theorem expression_reads :
    Reads ts Fits depth (expression ts limits operand) (Calculator.expression read) := by
  have hterm := term_reads hlimits h
  intro pos rest hat
  refine .bind (hterm pos rest hat) fun v pos' rest' hv _ hat' => ?_
  have hlength := hat'.length
  have hrounds := hlimits.rounds
  exact chain_follows safe_additive hterm hv hat' (by omega) (Nat.le_refl _)

omit hlimits h in
theorem moreArguments_close {rest : List Token} (hcomma : rest.head? ≠ some .comma) (left : Nat)
    (args : List Number) :
    Calculator.moreArguments read left args rest = (do
      let rest ← Calculator.expect .closeParen rest
      .ok (args, rest)) := by
  cases left with
  | zero => rfl
  | succ left =>
      unfold Calculator.moreArguments
      split
      · exact absurd rfl hcomma
      · rfl

theorem moreArguments_follows {rounds : Nat} {args : List Number} {pos : Nat} {rest : List Token}
    (hargs : ∀ a ∈ args, Fits a) (hat : At ts pos rest) (hlimit : rest.length < rounds)
    (left : List Token → Nat) (hleft : ∀ r, r.length ≤ rest.length → r.length ≤ left r) :
    Follows ts (∀ a ∈ ·, Fits a) (moreArguments ts limits operand rounds args) ⟨pos, depth⟩ (do
      let (v, rest) ← Calculator.expression read rest
      Calculator.moreArguments read (left rest) (args ++ [v]) rest) := by
  induction rounds generalizing args pos rest left with
  | zero => omega
  | succ rounds ih =>
      rw [moreArguments]
      refine .bind (expression_reads hlimits h pos rest hat) fun v pos' rest' hv hpos hat' => ?_
      have hargs' : ∀ a ∈ args ++ [v], Fits a := by
        simpa [or_imp, forall_and] using ⟨hargs, hv⟩
      have hlength := hat.length
      have hlength' := hat'.length
      dsimp only at hpos ⊢
      by_cases hcomma : rest'.head? = some .comma
      · obtain ⟨rest'', rfl⟩ := List.head?_eq_some_iff.mp hcomma
        rw [List.length_cons] at hlength'
        have hmore := hleft (.comma :: rest'') (by rw [List.length_cons]; omega)
        obtain ⟨n, hn⟩ : ∃ n, left (.comma :: rest'') = n + 1 :=
          ⟨left (.comma :: rest'') - 1, by rw [List.length_cons] at hmore; omega⟩
        rw [hn] at hmore ⊢
        refine .eat_of_head hat' ?_
        exact ih hargs' hat'.next (by omega) (fun _ => n) fun r hr => by
          rw [List.length_cons] at hmore
          omega
      · rw [moreArguments_close hcomma]
        refine .eat_of_not_head hat' hcomma ?_
        exact .expect hat' fun rest'' hat'' => .pure hargs' hat''

theorem arguments_reads :
    Reads ts (∀ a ∈ ·, Fits a) depth (arguments ts limits operand) (Calculator.arguments read) := by
  intro pos rest hat
  rw [arguments]
  by_cases hclose : rest.head? = some .closeParen
  · obtain ⟨rest, rfl⟩ := List.head?_eq_some_iff.mp hclose
    exact .eat_of_head hat (.pure (by simp) hat.next)
  · have hread : Calculator.arguments read rest = (do
        let (v, rest) ← Calculator.expression read rest
        Calculator.moreArguments read rest.length [v] rest) := by
      unfold Calculator.arguments
      split
      · exact absurd rfl hclose
      · rfl
    have hlength := hat.length
    have hrounds := hlimits.rounds
    rw [hread]
    exact .eat_of_not_head hat hclose
      (moreArguments_follows hlimits h (by simp) hat (by omega) List.length fun r _ => Nat.le_refl _)

theorem primary_reads :
    Reads ts Fits depth (primary ts limits operand) (Calculator.primary read) := by
  intro pos rest hat
  rw [primary]
  refine .next hat ?_
  cases rest with
  | nil => exact .fail _
  | cons t rest =>
      cases t with
      | number n =>
          have hmem : .number n ∈ ts := by
            apply List.mem_of_mem_drop (i := pos)
            rw [hat.drop]
            exact List.mem_cons_self
          exact .pure (hlimits.fits n hmem) hat.next
      | openParen =>
          refine .bind (expression_reads hlimits h _ _ hat.next) fun v pos' rest' hv _ hat' => ?_
          exact .expect hat' fun rest'' hat'' => .pure hv hat''
      | name s =>
          by_cases hopen : rest.head? = some .openParen
          · obtain ⟨rest, rfl⟩ := List.head?_eq_some_iff.mp hopen
            refine .eat_of_head hat.next ?_
            refine .bind (arguments_reads hlimits h _ _ hat.next.next)
              fun args pos' rest' hargs _ hat' => ?_
            rw [call_eq hlimits.divisions hlimits.products s hargs]
            exact .carryOut (call_fits s hargs) hat'
          · have hread : Calculator.primary read (.name s :: rest) = (do
                let v ← valueOf s
                .ok (v, rest)) := by
              cases rest with
              | nil => rfl
              | cons t rest =>
                  cases t with
                  | openParen => exact absurd rfl hopen
                  | _ => rfl
            rw [hread]
            exact .eat_of_not_head hat.next hopen (.carryOut (valueOf_fits s) hat.next)
      | _ => exact .fail _

theorem powered_reads :
    Reads ts Fits depth (powered ts limits operand) (Calculator.powered read) := by
  intro pos rest hat
  refine .bind (primary_reads hlimits h _ _ hat)
    fun b pos' rest' hb _ hat' => ?_
  by_cases hpower : rest'.head? = some .doubleStar
  · obtain ⟨rest', rfl⟩ := List.head?_eq_some_iff.mp hpower
    refine .eat_of_head hat' (.bind (h _ _ hat'.next) fun e pos'' rest'' he _ hat'' => ?_)
    exact .carryOut (power_fits b e) hat''
  · refine .eat_of_not_head hat' hpower ?_
    cases rest' with
    | nil => exact .pure hb hat'
    | cons t rest' =>
        cases t with
        | doubleStar => exact absurd rfl hpower
        | _ => exact .pure hb hat'

/-- What a reader of operands does with one that may have others in it. -/
theorem signed_reads {rest : List Token} {pos : Nat} (hat : At ts pos rest) {levels : Nat}
    (hread : read = Calculator.operand levels) :
    Follows ts Fits (signed ts limits operand) ⟨pos, depth⟩
      (Calculator.operand (levels + 1) rest) := by
  subst hread
  have hpowered := powered_reads hlimits h
  cases rest with
  | nil =>
      refine .eat_of_not_head hat (by simp) (.eat_of_not_head hat (by simp) ?_)
      exact hpowered pos [] hat
  | cons t rest =>
      cases t with
      | minus =>
          refine .eat_of_head hat (.bind (h _ _ hat.next) fun v pos' rest' hv _ hat' => ?_)
          exact .carryOut (neg_fits v) hat'
      | plus =>
          refine .eat_of_not_head hat (by simp) (.eat_of_head hat ?_)
          exact h _ _ hat.next
      | _ =>
          refine .eat_of_not_head hat (by simp) (.eat_of_not_head hat (by simp) ?_)
          exact hpowered _ _ hat

omit hlimits h in
theorem opened_follows {m : Action Number} {pos : Nat} {r : Reading} (hdepth : depth < maxDepth)
    (h : Follows ts Fits m ⟨pos, depth + 1⟩ r) : Follows ts Fits (opened m) ⟨pos, depth⟩ r := by
  have hopen : ¬ maxDepth < depth + 1 := by omega
  cases h with
  | ok hv hpos hat h =>
      refine .ok hv hpos hat ?_
      simp [opened, hopen, h]
  | @error e d hdepth' h =>
      have hclose : d.depth ≠ 0 := Nat.ne_of_gt (Nat.lt_of_lt_of_le (Nat.succ_pos _) hdepth')
      refine .error (d := { d with depth := d.depth - 1 }) (Nat.le_sub_one_of_lt hdepth') ?_
      simp [opened, hopen, h, hclose]

omit h in
theorem operand_reads {levels : Nat} (hdepth : depth + levels = maxDepth) :
    Reads ts Fits depth (Machine.operand ts limits levels) (Calculator.operand levels) := by
  -- the levels left and the open operands add up to the most there may be, so the last level is
  -- reached only where one more operand is too deep
  induction levels generalizing depth with
  | zero =>
      intro pos rest hat
      have hdeep : maxDepth < depth + 1 := by omega
      exact .error (d := ⟨pos, depth + 1⟩) (Nat.le_succ _) (if_pos hdeep)
  | succ levels ih =>
      intro pos rest hat
      refine opened_follows (by omega) ?_
      exact signed_reads hlimits (ih (by omega)) hat rfl

omit h in
theorem evaluateTokens_eq (hlevels : limits.levels = maxDepth) :
    ∃ c, evaluateTokens ts limits ⟨0, 0⟩ = some (Calculator.evaluateTokens ts, c) := by
  have hopen : 0 + limits.levels = maxDepth := by omega
  have hoperand := operand_reads hlimits hopen
  have hat : At ts 0 ts := ⟨Nat.zero_le _, List.drop_zero⟩
  rw [evaluateTokens, Calculator.evaluateTokens, ← hlevels]
  have hread := expression_reads hlimits hoperand 0 ts hat
  generalize Calculator.expression (Calculator.operand limits.levels) ts = r at hread
  cases hread with
  | @error e c hdepth h => exact ⟨c, by simp only [Bind.bind, h, Except.bind]⟩
  | @ok v pos rest hv hpos hat h =>
      refine ⟨⟨pos, 0⟩, ?_⟩
      cases rest with
      | nil => simp [Bind.bind, Pure.pure, h, Except.bind, peek, hat.get]
      | cons t rest => simp [Bind.bind, h, Except.bind, peek, fail, hat.get]

omit hlimits h in
/-- Whatever the text, its evaluation ends without a crash: loops have at most one round more than
the text has characters, at most 100 operands are open at a time, and functions take at most 128
divisions for an argument and 20 multiplications. -/
theorem evaluate_completes (s : String) :
    evaluate { rounds := s.length + 1, levels := 100, divisions := 128, products := 20 } s =
      some (Calculator.evaluate s) := by
  rw [evaluate, ofText_eq (Nat.le_succ _), Calculator.evaluate]
  cases hts : Token.ofText s with
  | error e => rfl
  | ok ts =>
      obtain ⟨hfits, hlength⟩ := Token.ofText_fits hts
      have hlimits : Suit ⟨s.length + 1, 100, 128, 20⟩ ts :=
        ⟨Nat.lt_succ_of_le hlength, Nat.le_refl _, Nat.le_refl _, hfits⟩
      obtain ⟨c, hc⟩ := evaluateTokens_eq hlimits rfl
      simp [hc, Bind.bind, Except.bind]

end ChatAgent.Calculator.Machine

import StackLift.Proofs.Assembly
import StackLift.Proofs.Statements

namespace StackLift

/-- The registers, and the words of the variables that have one. -/
structure Environment where
  registers : RegisterFile UInt64
  store : Nat → Option UInt64

inductive EvaluationFault where
  | unassigned (index : Nat)
  | noValue
  | failed (fault : FoldFault)

namespace Environment

def start (registers : RegisterFile UInt64) : Environment :=
  ⟨registers, fun _ => none⟩

/-- Runs an instruction on words, the deepest first. Its value is the word that it leaves on top. -/
def execute (env : Environment) (i : Instruction) (words : List UInt64) :
    Except EvaluationFault (Option UInt64 × Environment) :=
  match (Machine.mk env.registers words.reverse).execute i with
  | (.ok (), m) => .ok (m.stack.head?, { env with registers := m.registers })
  | (.error fault, _) => .error (.failed fault)

def assign (env : Environment) : Option Nat → Option UInt64 → Except EvaluationFault Environment
  | none, _ => .ok env
  | some index, some word => .ok { env with store := Function.update env.store index (some word) }
  | some _, none => .error .noValue

end Environment

namespace Expression

mutual

/-- The value of an expression, and the environment behind it. The arguments are evaluated first,
left to right. -/
def evaluate (env : Environment) :
    Expression → Except EvaluationFault (Option UInt64 × Environment)
  | .instruction offset opcode operand arguments => do
    let (words, env) ← evaluateAll env arguments
    env.execute (Decoded.placed ⟨opcode, operand⟩ offset) words
  | .call offset opcode _ arguments => do
    let (words, env) ← evaluateAll env arguments
    env.execute (Decoded.placed ⟨opcode, .none⟩ offset) words
  | .read index _ =>
    match env.store index with
    | some word => .ok (some word, env)
    | none => .error (.unassigned index)

def evaluateAll (env : Environment) :
    List Expression → Except EvaluationFault (List UInt64 × Environment)
  | [] => .ok ([], env)
  | expression :: rest => do
    let (value, env) ← evaluate env expression
    match value with
    | none => .error .noValue
    | some word =>
      let (words, env) ← evaluateAll env rest
      return (word :: words, env)

end

def leaves : Expression → Bool
  | .instruction _ opcode .. => opcode.flow = .leave
  | .call _ opcode .. => opcode.flow = .leave
  | .read .. => false

end Expression

def Statement.evaluate (statement : Statement) (env : Environment) :
    Except EvaluationFault Environment := do
  let (value, env) ← statement.expression.evaluate env
  env.assign statement.target value

/-- Evaluates statements in order, up to one that leaves. -/
def Environment.run (env : Environment) : List Statement → Except EvaluationFault Environment
  | [] => .ok env
  | statement :: rest =>
    if statement.expression.leaves then .ok env
    else do
      let env ← statement.evaluate env
      env.run rest

namespace Environment

variable {env after : Environment} {store : Nat → Option UInt64} {word : UInt64}

structure Keeps (after env : Environment) : Prop where
  store : after.store = env.store
  registers : ∀ r, r ≠ .ip → after.registers.get r = env.registers.get r

def Extends (env : Environment) (store : Nat → Option UInt64) : Prop :=
  ∀ index word, store index = some word → env.store index = some word

theorem Keeps.refl (env : Environment) : env.Keeps env :=
  ⟨rfl, fun _ _ => rfl⟩

theorem Keeps.trans {a b c : Environment} (hab : a.Keeps b) (hbc : b.Keeps c) : a.Keeps c :=
  ⟨hab.store.trans hbc.store, fun r hr => (hab.registers r hr).trans (hbc.registers r hr)⟩

theorem Extends.keeps (h : env.Extends store) (hafter : after.Keeps env) : after.Extends store := by
  intro index word hword
  rw [hafter.store]
  exact h index word hword

theorem exists_assign (env : Environment) (target : Option Nat) (word : UInt64) :
    ∃ next, env.assign target (some word) = .ok next ∧ next.registers = env.registers ∧
      ∀ index, next.store index = if target = some index then some word else env.store index := by
  cases target with
  | none => exact ⟨env, rfl, rfl, fun index => (if_neg (Option.some_ne_none index).symm).symm⟩
  | some target =>
    refine ⟨_, rfl, rfl, ?_⟩
    intro index
    simp only [Function.update_apply, Option.some.injEq, eq_comm]

end Environment

namespace Expression

variable {e : Expression} {env : Environment} {store more : Nat → Option UInt64} {word : UInt64}

/-- Wherever the variables have these words, the expression has the value, and only the instruction
pointer moves. -/
def Yields (e : Expression) (store : Nat → Option UInt64) (word : UInt64) : Prop :=
  ∀ env : Environment, env.Extends store →
    ∃ after, e.evaluate env = .ok (some word, after) ∧ after.Keeps env

theorem Yields.mono (h : e.Yields store word)
    (hmore : ∀ index word, store index = some word → more index = some word) :
    e.Yields more word :=
  fun env henv => h env fun index word hword => henv index word (hmore index word hword)

theorem yields_read {index : Nat} (h : store index = some word) (site : Site) :
    (read index site).Yields store word := by
  intro env henv
  refine ⟨env, ?_, .refl env⟩
  rw [evaluate, henv index word h]

theorem evaluateAll_of_yields {arguments : List Expression} {words : List UInt64}
    (h : List.Forall₂ (fun e word => e.Yields store word) arguments words)
    (henv : env.Extends store) :
    ∃ after, evaluateAll env arguments = .ok (words, after) ∧ after.Keeps env := by
  induction h generalizing env with
  | nil =>
    refine ⟨env, ?_, .refl env⟩
    rw [evaluateAll]
  | @cons e word _ _ hyields _ ih =>
    obtain ⟨middle, hfirst, hmiddle⟩ := hyields env henv
    obtain ⟨after, hrest, hafter⟩ := ih (henv.keeps hmiddle)
    refine ⟨after, ?_, hafter.trans hmiddle⟩
    rw [evaluateAll, hfirst]
    change (evaluateAll middle _ >>= fun evaluated => _) = _
    rw [hrest]
    rfl

end Expression

namespace Outline

variable {o : Outline} {store more : Nat → Option UInt64} {v : Provenance} {word : UInt64}
  {env : Environment} {node : Node} {path : OffsetSet} {e : Expression}

def Gives (o : Outline) (store : Nat → Option UInt64) (v : Provenance) (word : UInt64) : Prop :=
  ∀ path site e, o.argument path site v = .ok e → e.Yields store word

theorem Gives.mono (h : o.Gives store v word)
    (hmore : ∀ index word, store index = some word → more index = some word) :
    o.Gives more v word :=
  fun path site e he => (h path site e he).mono hmore

theorem yields_of_arguments {offset : UInt32} {slot : Nat} {inputs : List Provenance}
    {arguments : List Expression} {words : List UInt64}
    (h : o.arguments path offset slot inputs = .ok arguments)
    (hgives : List.Forall₂ (o.Gives store) inputs words) :
    List.Forall₂ (fun e word => e.Yields store word) arguments words := by
  induction hgives generalizing slot arguments with
  | nil =>
    rw [Outline.arguments] at h
    cases h
    exact .nil
  | cons hgives _ ih =>
    rw [Outline.arguments] at h
    obtain ⟨first, hfirst, h⟩ := bind_eq_ok.1 h
    obtain ⟨others, hothers, h⟩ := bind_eq_ok.1 h
    cases h
    exact .cons (hgives path _ first hfirst) (ih hothers)

end Outline

def Instruction.Sized (i : Instruction) : Prop :=
  i.size = (Decoded.mk i.opcode i.operand).size

structure Node.Bare (node : Node) : Prop where
  sized : node.Sized
  nothing : node.inferred = .nothing

namespace Node

variable {node : Node}

theorem Bare.argumentInputs_eq (h : node.Bare) : node.argumentInputs = node.inputs := by
  rw [argumentInputs, argumentCount, call?, h.nothing]
  exact List.take_length

theorem Bare.toExpression_eq (h : node.Bare) (arguments : List Expression) :
    node.toExpression arguments = .instruction node.offset node.opcode node.operand arguments := by
  rw [toExpression, call?, h.nothing]

theorem Bare.placed_eq (h : node.Bare) :
    Decoded.placed ⟨node.opcode, node.operand⟩ node.offset = node.toInstruction := by
  rw [Decoded.placed, ← h.sized]

end Node

namespace Outline

variable {o : Outline} {store : Nat → Option UInt64} {env : Environment} {node : Node}
  {path : OffsetSet} {e : Expression} {words : List UInt64}

theorem leaves_expression (hnode : node.Bare) (h : o.expression path node = .ok e) :
    e.leaves = decide (node.opcode.flow = .leave) := by
  obtain ⟨arguments, _, rfl⟩ := expression_cases h
  rw [hnode.toExpression_eq, Expression.leaves]

/-- The expression of an instruction runs it on the words that its arguments give. -/
theorem evaluate_expression (hnode : node.Bare) (h : o.expression path node = .ok e)
    (hgives : List.Forall₂ (o.Gives store) node.inputs words) (henv : env.Extends store) :
    ∃ ready : Environment, ready.Keeps env ∧
      e.evaluate env = ready.execute node.toInstruction words := by
  obtain ⟨arguments, harguments, rfl⟩ := expression_cases h
  rw [hnode.argumentInputs_eq] at harguments
  obtain ⟨ready, hready, hkeeps⟩ :=
    Expression.evaluateAll_of_yields (yields_of_arguments harguments hgives) henv
  refine ⟨ready, hkeeps, ?_⟩
  rw [hnode.toExpression_eq, Expression.evaluate, hready, ← hnode.placed_eq]
  rfl

end Outline

end StackLift

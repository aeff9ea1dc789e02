import Ember.Ir.Basic

/-!
# Ember — functions under construction

A draft is a function that is still being written. It has a prologue, which holds the storage of the
frame and registers its roots; a body; and one shared exit, which unregisters those roots. A return
stores its value and jumps to the exit, so roots are pushed and popped in balance on every path.

Operations run in `Drafting`. They fail where the construction itself is misused, for instance when
an instruction would follow the end of its block.
-/

namespace Ember.Ir

/-- Where `break` and `continue` lead inside one loop. -/
structure LoopTargets where
  leave : Nat
  next : Nat
  /-- How many protected regions were open when the loop was entered. -/
  tryDepth : Nat
deriving DecidableEq

/-- A function under construction. -/
structure Draft where
  symbol : String
  result : Ty
  parameters : List Nat := []
  registers : Table Register := {}
  blocks : Table Block := {}
  prologue : Nat := 0
  body : Nat := 0
  exit : Nat := 0
  current : Nat := 0
  /-- Where the result is kept until the exit loads it. -/
  resultSlot : Option Nat := none
  rootCount : Nat := 0
  /-- Enclosing loops, innermost first. -/
  loops : List LoopTargets := []
  tryDepth : Nat := 0
deriving Inhabited

abbrev Drafting := EStateM Fault Draft

namespace Draft

def fail {α : Type} (f : Fault) : Drafting α :=
  throw f

def register (ty : Ty) (name : Option String := none) : Drafting Nat :=
  modifyGet fun d => (d.registers.size, { d with registers := d.registers.push ⟨ty, name⟩ })

def parameter (ty : Ty) (name : String) : Drafting Nat := do
  let r ← register ty (some name)
  modify fun d => { d with parameters := d.parameters ++ [r] }
  return r

def block (label : String) : Drafting Nat :=
  modifyGet fun d => (d.blocks.size, { d with blocks := d.blocks.push { label } })

def append (b : Nat) (i : Instr) : Drafting Unit := do
  let d ← get
  match d.blocks.get? b with
  | none => fail (.outOfRange b)
  | some blk =>
    match d.blocks.set b { blk with instrs := blk.instrs.push i } with
    | .ok blocks => set { d with blocks }
    | .error f => fail f

def moveTo (b : Nat) : Drafting Unit :=
  modify fun d => { d with current := b }

/-- Appends to the current block, which must not have ended. -/
def push (i : Instr) : Drafting Unit := do
  let d ← get
  match d.blocks.get? d.current with
  | none => fail (.outOfRange d.current)
  | some blk => if blk.isTerminated then fail .blockEnded else append d.current i

def pushPrologue (i : Instr) : Drafting Unit := do
  append (← get).prologue i

/-- Ends the current block. What follows lands in a fresh block that nothing leads to. -/
def terminate (i : Instr) : Drafting Unit := do
  if i.isTerminator then
    push i
    moveTo (← block "dead")
  else fail .notATerminator

def jump (dest : Nat) : Drafting Unit :=
  terminate (.jump dest)

/-- Ends the current block with a branch on a register. -/
def branch (condition positive negative : Nat) : Drafting Unit :=
  terminate (.branch (.reg condition) positive negative)

/-- Appends a call. The result register exists exactly when the callee returns something. -/
def call (callee : Callee) (arguments : List Typed) : Drafting (Option Nat) := do
  let dest ← if callee.result = .void then pure none else some <$> register callee.result
  push (.call dest callee.result callee arguments)
  return dest

def callFor (callee : Callee) (arguments : List Typed) : Drafting Nat := do
  match ← call callee arguments with
  | some r => return r
  | none => fail .resultMismatch

def callVoid (callee : Callee) (arguments : List Typed) : Drafting Unit := do
  match ← call callee arguments with
  | none => return ()
  | some _ => fail .resultMismatch

def load (ty : Ty) (source : Operand) : Drafting Nat := do
  let dest ← register ty
  push (.load dest ty source)
  return dest

def store (value : Typed) (dest : Operand) : Drafting Unit :=
  push (.store value dest)

/-- Appends the computation of the address of a neighbouring value. -/
def element (base index : Nat) : Drafting Nat := do
  let dest ← register .ptr
  push (.element dest .value (.reg base) (.i64 (Int64.ofNat index)))
  return dest

def compare (predicate : Predicate) (lhs : Typed) (rhs : Operand) : Drafting Nat := do
  let dest ← register .i1
  push (.compare dest predicate lhs rhs)
  return dest

def arith (op : IntOp) (lhs : Nat) (rhs : Operand) : Drafting Nat := do
  let dest ← register .i64
  push (.arith dest op ⟨.i64, .reg lhs⟩ rhs)
  return dest

/-! ## Storage of the frame -/

def registerRoot (slot : Operand) : Drafting Unit :=
  pushPrologue (.call none .void (.entry .pushRoot) [⟨.ptr, slot⟩])

/-- Makes a slot a zeroed, registered root of the frame. -/
def rootSlot (slot : Nat) : Drafting Unit := do
  pushPrologue (.alloca slot .value 1)
  pushPrologue (.store ⟨.value, .imm .zero⟩ (.reg slot))
  registerRoot (.reg slot)
  modify fun d => { d with rootCount := d.rootCount + 1 }

/-- A rooted slot for a variable of the source program. -/
def localSlot (symbol : String) : Drafting Nat := do
  let slot ← register .ptr (some symbol)
  rootSlot slot
  return slot

/-- A rooted slot for a value that compiled code keeps across calls. -/
def hiddenSlot : Drafting Nat := do
  let slot ← register .ptr
  rootSlot slot
  return slot

/-- Registers a slot of the whole program as a root. It stays registered. -/
def globalRoot (symbol : String) : Drafting Unit :=
  registerRoot (.global (.slot symbol))

def cells (count : Nat) : Drafting Nat := do
  let buffer ← register .ptr
  pushPrologue (.alloca buffer .value count)
  return buffer

/-- Neighbouring cells for a count that has 32 bits. There is at least one. -/
def scratch (count : Nat) : Drafting Nat :=
  cells (max count 1 % 0x100000000)

def stackSlot (ty : Ty) : Drafting Nat := do
  let slot ← register .ptr
  pushPrologue (.alloca slot ty 1)
  return slot

def counter (initial : Operand) : Drafting Nat := do
  let slot ← stackSlot .i64
  store ⟨.i64, initial⟩ (.reg slot)
  return slot

def count (counter : Nat) : Drafting Nat :=
  load .i64 (.reg counter)

def advance (counter : Nat) (amount : Operand) : Drafting Unit := do
  let next ← arith .add (← count counter) amount
  store ⟨.i64, .reg next⟩ (.reg counter)

/-! ## Loops and protected regions -/

def pushLoop (leave next : Nat) : Drafting Unit :=
  modify fun d => { d with loops := ⟨leave, next, d.tryDepth⟩ :: d.loops }

def popLoop : Drafting Unit :=
  modify fun d => { d with loops := d.loops.tail }

def innermostLoop : Drafting (Option LoopTargets) := do
  return (← get).loops.head?

def enterTry : Drafting Unit :=
  modify fun d => { d with tryDepth := d.tryDepth + 1 }

def exitTry : Drafting Unit := do
  let d ← get
  if d.tryDepth = 0 then fail .noOpenTry else set { d with tryDepth := d.tryDepth - 1 }

/-- `n` calls that each drop the innermost checkpoint. -/
def popTries : Nat → Drafting Unit
  | 0 => return ()
  | n + 1 => do
    callVoid (.entry .tryPop) []
    popTries n

/-- Drops the checkpoints that were opened since `depth`. -/
def unwindTriesTo (depth : Nat) : Drafting Unit := do
  popTries ((← get).tryDepth - depth)

def emitReturn (value : Option Nat) : Drafting Unit := do
  unwindTriesTo 0
  let d ← get
  match d.resultSlot, value with
  | some slot, some v => push (.store (.value v) (.reg slot))
  | _, _ => pure ()
  jump d.exit

/-! ## Beginning and end -/

/-- The three blocks that every function has, and the slot of its result. -/
def opening : Drafting Unit := do
  let prologue ← block "entry"
  let body ← block "body"
  let exit ← block "exit"
  modify fun d => { d with prologue, body, exit, current := body }
  if (← get).result = .value then
    let slot ← register .ptr (some "result")
    pushPrologue (.alloca slot .value 1)
    modify fun d => { d with resultSlot := some slot }

def start (symbol : String) (result : Ty) : Draft :=
  match opening { symbol, result } with
  | .ok _ d => d
  | .error _ d => d

/-- The instructions of the exit: unregister the roots of the frame, then return. -/
def exitInstrs : Drafting (Array Instr) := do
  let d ← get
  let pops : Array Instr :=
    if d.rootCount = 0 then #[]
    else #[.call none .void (.entry .popRoots) [.i32 d.rootCount]]
  match d.result, d.resultSlot with
  | .value, some slot =>
    let r ← register .value
    return pops ++ #[.load r .value (.reg slot), .ret (some (.value r))]
  | .i32, _ => return pops.push (.ret (some (.i32 0)))
  | _, _ => return pops.push (.ret none)

def sealBlock (b : Block) : Block :=
  if b.isTerminated then b else { b with instrs := b.instrs.push .unreachable }

/-- Completes the prologue and the exit and ends every open block. -/
def finish : Drafting Function := do
  let d ← get
  pushPrologue (.jump d.body)
  let exit ← exitInstrs
  let d ← get
  match d.blocks.get? d.exit with
  | none => fail (.outOfRange d.exit)
  | some blk =>
    match d.blocks.set d.exit { blk with instrs := exit } with
    | .error f => fail f
    | .ok blocks =>
      return {
        symbol := d.symbol
        result := d.result
        parameters := d.parameters
        registers := d.registers
        blocks := ⟨blocks.entries.map sealBlock⟩ }

end Draft

end Ember.Ir

import Ember.Machine.Library

/-!
# Ember — steps of the machine

The machine runs one instruction at a time. What is in progress is a list: functions, method calls
and constructions, innermost first. An instruction looks at the innermost function and at the host
and gives an effect; the effect changes the list. A raise walks down the list to the function whose
resume point belongs to the checkpoint that the raise took.

* `perform` — what an instruction does to the host, and its effect.
* `deliver` — hands a result to what waits for it.
* `unwind`  — takes a raise to the function that it resumes.
* `step`    — one instruction.
-/

namespace Ember

/-- A machine between two instructions. -/
structure Machine where
  host : Host
  /-- Slots of finished calls, the latest first. -/
  spare : List Nat := []
  /-- What is in progress, innermost first. -/
  control : List Machine.Entry

end Ember

namespace Ember.Machine

open Host (sound fault)

/-- How a program ends. -/
inductive Outcome
  | exit (status : Int32)
  | fatal (e : FatalError)
  | fault (f : Fault)
deriving DecidableEq

/-- A machine that goes on, or the end of its program. -/
inductive Progress
  | running (m : Machine)
  | halted (h : Host) (o : Outcome)

/-! ## Instructions -/

def loadFrom (ty : Ir.Ty) (p : Pointer) : Act Scalar :=
  match ty, p with
  | .value, .values .. => do return .value (← Host.load (← sound (slotAt p)))
  | .i64, .word depth => do return .int (← sound ((← get).stack.word depth)).toInt64
  | _, _ => fault .operandKind

def storeTo (s : Scalar) (p : Pointer) : Act Unit :=
  match s, p with
  | .value v, .values .. => do Host.store (← sound (slotAt p)) v
  | .int n, .word depth => fun h =>
    if depth < h.stack.depth then
      .ok () { h with stack := { h.stack with words := h.stack.words.setIfInBounds depth n.toUInt64 } }
    else .error (.fault (.outOfRange depth)) h
  | _, _ => fault .operandKind

def performCall (image : Image) (dest : Option Nat) (callee : Ir.Callee)
    (arguments : List Scalar) : Act Effect :=
  match callee, arguments with
  | .entry e, arguments => callEntry image e arguments
  | .intrinsic .setjmp, [.ptr (.checkpoint depth)] =>
    if dest.isSome then return .checkpoint depth else fault .resultMismatch
  | .intrinsic (.math op), .float x :: _ => return .answer (.float (op.apply x))
  | .intrinsic _, _ => fault .badCall
  | .function symbol, arguments => return .enter symbol arguments

def extract (s : Scalar) (index : Nat) : Except Fault Scalar :=
  match s with
  | .value v => .ok (.int (if index = 0 then v.tagWord.toInt64 else v.word.toInt64))
  | _ => .error .operandKind

def shift (p : Pointer) (index : Int64) : Except Fault Scalar :=
  match p with
  | .values slots offset => do return .ptr (.values slots (← Heap.sum64 offset (countOf index)))
  | _ => .error .operandKind

/-- What an instruction does to the host, and its effect on the function. -/
def perform (image : Image) (a : Activation) : Ir.Instr → Act Effect
  | .alloca dest ty count =>
    if ty = .value then return .slots count
    else
      match a.routine.layout.cells.lookup dest with
      | some offset => return .answer (.ptr (.word (a.base + offset)))
      | none => fault (.outOfRange dest)
  | .load _ ty source => do
    return .answer (← loadFrom ty (← sound (a.pointerOperand image source)))
  | .store value dest => do
    let s ← sound (a.typed image value)
    storeTo s (← sound (a.pointerOperand image dest))
    return .next
  | .call dest _ callee arguments => do
    performCall image dest callee (← sound (arguments.mapM (a.typed image)))
  | .extract _ aggregate index => do
    return .answer (← sound (extract (← sound (a.operand image aggregate)) index))
  | .element _ _ base index => do
    let p ← sound (a.pointerOperand image base)
    return .answer (← sound (shift p (← sound (a.intTyped image index))))
  | .compare _ predicate lhs rhs => do
    let l ← sound (a.intTyped image lhs)
    let r ← sound (a.intOperand image rhs)
    return .answer (.ofBool (comparison predicate l r))
  | .arith _ op lhs rhs => do
    let l ← sound (a.intTyped image lhs)
    let r ← sound (a.intOperand image rhs)
    return .answer (.int (arithmetic op l r))
  | .branch condition positive negative => do
    let c ← sound (a.intOperand image condition)
    return .jump (if c != 0 then positive else negative)
  | .jump dest => return .jump dest
  | .ret none => return .ret .void
  | .ret (some value) => do return .ret (← sound (a.typed image value))
  | .unreachable => fault .unreachable
  | .comment _ => return .next

def destOf : Ir.Instr → Option Nat
  | .alloca dest _ _ | .load dest _ _ | .extract dest _ _ | .element dest _ _ _
  | .compare dest _ _ _ | .arith dest _ _ _ => some dest
  | .call dest _ _ _ => dest
  | _ => none

/-! ## Slots -/

/-- Takes a slot, a spare one if there is one, and clears it. -/
def takeSlot (spare : List Nat) : Act (Nat × List Nat) :=
  match spare with
  | slot :: rest => do
    Host.store slot default
    return (slot, rest)
  | [] => do return (← Host.newSlot, [])

def takeSlots : Nat → List Nat → Array Nat → Act (Array Nat × List Nat)
  | 0, spare, taken => return (taken, spare)
  | n + 1, spare, taken => do
    let (slot, spare) ← takeSlot spare
    takeSlots n spare (taken.push slot)

def takeValues : List Value → List Nat → Array Nat → Act (Array Nat × List Nat)
  | [], spare, taken => return (taken, spare)
  | v :: rest, spare, taken => do
    let (slot, spare) ← takeSlot spare
    Host.store slot v
    takeValues rest spare (taken.push slot)

def giveBack (slots : Array Nat) (spare : List Nat) : List Nat :=
  slots.foldl (fun spare slot => slot :: spare) spare

/-- The host with its machine stack cut to a depth. -/
def cutStack (h : Host) (depth : Nat) : Host :=
  { h with stack := h.stack.truncate depth }

/-! ## Raises -/

/-- Resumes a function after the call that recorded a resume point. -/
def resume (a : Activation) (r : Resume) (older : List Resume) : Act Activation :=
  { a with resumes := older, block := r.block, position := r.position + 1 }.define r.dest (.int 1)

/-- The resume point of a function for the checkpoint of a depth, and those that are older. -/
def resumePoint (a : Activation) (depth : Nat) : Option (Resume × List Resume) :=
  match a.resumes with
  | r :: older => if r.depth = depth then some (r, older) else none
  | [] => none

/-- The end of a program that nothing caught the exception of. -/
def uncaught (v : Value) (host : Host) : Progress :=
  match host.heap.display v with
  | .ok text => .halted host (.fatal (.uncaught "main" text))
  | .error f => .halted host (.fault f)

def failed (host : Host) : Interrupt → Progress
  | .fault f => .halted host (.fault f)
  | .fatal e => .halted host (.fatal e)
  | .raise v => uncaught v host

/-- Takes a raise to the function that it resumes. The raise has taken its checkpoint already, so
that function is the one with a resume point one deeper than the checkpoints that are left. -/
def unwind (v : Value) (host : Host) (spare : List Nat) : List Entry → Progress
  | [] => uncaught v host
  | .body a :: rest =>
    match resumePoint a (host.tryDepth + 1) with
    | some (r, older) =>
      match resume a r older host with
      | .ok a host => .running ⟨host, spare, .body a :: rest⟩
      | .error e host => failed host e
    | none => unwind v (cutStack host a.base) (giveBack a.owned spare) rest
  | .method slots depth :: rest => unwind v (cutStack host depth) (giveBack slots spare) rest
  | .field c _ :: rest => unwind v (cutStack host c.depth) spare rest
  | .made c :: rest => unwind v (cutStack host c.depth) spare rest

def interrupted (host : Host) (spare : List Nat) (control : List Entry) : Interrupt → Progress
  | .raise v => unwind v host spare control
  | .fatal e => .halted host (.fatal e)
  | .fault f => .halted host (.fault f)

@[inline] def andThen {α : Type} (x : Act α) (host : Host) (spare : List Nat)
    (control : List Entry) (k : α → Host → Progress) : Progress :=
  match x host with
  | .ok a host => k a host
  | .error e host => interrupted host spare control e

/-! ## Calls and results -/

def enter (image : Image) (symbol : String) (arguments : List Scalar) (host : Host)
    (spare : List Nat) (control : List Entry) : Progress :=
  andThen (Activation.begin image symbol arguments) host spare control fun a host =>
    .running ⟨host, spare, .body a :: control⟩

/-- Runs a method: its receiver and arguments are spilled, and the arguments get slots. -/
def invoke (image : Image) (m : Method) (target : Value) (arguments : List Value) (host : Host)
    (spare : List Nat) (control : List Entry) : Progress :=
  let depth := host.stack.depth
  let host := { host with stack := host.stack.pushValues (target :: arguments) }
  andThen (takeValues arguments spare #[]) host spare control fun (slots, spare) host =>
    enter image m.code
      [.value target, .ptr (.values slots 0), .int (Int64.ofNat arguments.length)]
      host spare (.method slots depth :: control)

/-- Goes on with a construction: the next initializer, then the method `init`, then the result. -/
def advance (image : Image) (c : Host.Construction) (host : Host) (spare : List Nat)
    (control : List Entry) (k : Value → Host → Progress) : Progress :=
  match c.remaining with
  | f :: more =>
    enter image f.initializer [.value c.receiver] host spare
      (.field { c with remaining := more } f :: control)
  | [] =>
    andThen (Host.conclude c) host spare (.made c :: control) fun m host =>
      match m with
      | some m => invoke image m c.receiver c.arguments host spare (.made c :: control)
      | none => andThen (Host.finish c) host spare control k

def deliver (image : Image) (s : Scalar) (host : Host) (spare : List Nat) :
    List Entry → Progress
  | [] =>
    match s with
    | .int n => .halted host (.exit n.toInt32)
    | _ => .halted host (.fault .operandKind)
  | .body a :: rest =>
    match a.defineOption a.awaits s host with
    | .ok a host => .running ⟨host, spare, .body a.next :: rest⟩
    | .error e host => failed host e
  | .method slots depth :: rest =>
    match s with
    | .value _ => deliver image s (cutStack host depth) (giveBack slots spare) rest
    | _ => .halted host (.fault .operandKind)
  | .field c f :: rest =>
    match s with
    | .value v =>
      andThen (Host.assign c f v) host spare (.made c :: rest) fun _ host =>
        advance image c host spare rest fun v host => deliver image (.value v) host spare rest
    | _ => .halted host (.fault .operandKind)
  | .made c :: rest =>
    andThen (Host.finish c) host spare rest fun v host => deliver image (.value v) host spare rest

def apply (image : Image) (effect : Effect) (dest : Option Nat) (a : Activation)
    (rest : List Entry) (host : Host) (spare : List Nat) : Progress :=
  match effect with
  | .next => .running ⟨host, spare, .body a.next :: rest⟩
  | .answer s =>
    match a.defineOption dest s host with
    | .ok a host => .running ⟨host, spare, .body a.next :: rest⟩
    | .error e host => failed host e
  | .slots count =>
    match takeSlots count spare #[] host with
    | .ok (slots, spare) host =>
      match { a with owned := a.owned ++ slots }.defineOption dest (.ptr (.values slots 0)) host with
      | .ok a host => .running ⟨host, spare, .body a.next :: rest⟩
      | .error e host => failed host e
    | .error e host => failed host e
  | .closed =>
    match (a.close (host.tryDepth + 1)).defineOption dest .void host with
    | .ok a host => .running ⟨host, spare, .body a.next :: rest⟩
    | .error e host => failed host e
  | .checkpoint depth =>
    match dest with
    | none => .halted host (.fault .resultMismatch)
    | some r =>
      let point : Resume := { depth, block := a.block, position := a.position, dest := r }
      match { a with resumes := point :: a.resumes }.define r (.int 0) host with
      | .ok a host => .running ⟨host, spare, .body a.next :: rest⟩
      | .error e host => failed host e
  | .jump block => .running ⟨host, spare, .body { a with block, position := 0 } :: rest⟩
  | .ret s => deliver image s (cutStack host a.base) (giveBack a.owned spare) rest
  | .enter symbol arguments =>
    enter image symbol arguments host spare (.body { a with awaits := dest } :: rest)
  | .invoke m target arguments =>
    invoke image m target arguments host spare (.body { a with awaits := dest } :: rest)
  | .construct c =>
    let control := .body { a with awaits := dest } :: rest
    advance image c host spare control fun v host => deliver image (.value v) host spare control

def step (image : Image) (m : Machine) : Progress :=
  match m with
  | ⟨host, spare, .body a :: rest⟩ =>
    match a.instr? with
    | none => .halted host (.fault (.outOfRange a.position))
    | some i =>
      match perform image a i host with
      | .ok effect host => apply image effect (destOf i) a rest host spare
      | .error e host => interrupted host spare (.body a :: rest) e
  | ⟨host, _, _⟩ => .halted host (.fault .unreachable)

end Ember.Machine

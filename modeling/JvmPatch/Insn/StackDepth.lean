import JvmPatch.Insn.Effect

/-! The depth of the operand stack. Control is followed from the start of a body and from its
exception handlers; every instruction has to be reached with one depth only. -/

set_option autoImplicit false

namespace JvmPatch

/-- The places of the labels in a list of instructions. If a label is placed twice, the later place
comes first. -/
def Code.labelPlaces (code : Code) : List (Label × Nat) :=
  (code.insns.zipIdx.filterMap fun e => e.1.placed?.map fun l => (l, e.2)).reverse

namespace StackDepth

/-- Control reaches an instruction with so many slots on the stack. -/
structure Arrival where
  index : Nat
  depth : UInt16
  deriving DecidableEq, Repr

/-- The depths with which instructions have been reached, and the greatest depth so far. -/
structure Progress where
  depths : Array (Option UInt16)
  deepest : UInt16 := 0
  deriving DecidableEq, Repr

def placeOf (code : Code) (label : Label) : Except StackError Nat :=
  match code.labelPlaces.lookup label with
  | some place => .ok place
  | none => .error (.unplaced label)

def depthAfter (index : Nat) (depth : UInt16) (effect : StackEffect) : Except StackError UInt16 :=
  if depth < effect.pop then .error (.underflow index)
  else
    let after := (depth - effect.pop).toNat + effect.push.toNat
    if after ≤ 65535 then .ok (UInt16.ofNat after) else .error .overflow

/-- Where control goes from an instruction. After a subroutine the depth is that before its call. -/
def arrivalsFrom (code : Code) (index : Nat) (depth after : UInt16) (insn : Insn) :
    Except StackError (List Arrival) := do
  let targets ← insn.branchTargets.mapM fun l => (placeOf code l).map fun i => Arrival.mk i after
  match insn with
  | .jump op _ =>
    if op = Opcode.jsr then pure (targets ++ [⟨index + 1, depth⟩])
    else if insn.flow.fallsThrough then pure (targets ++ [⟨index + 1, after⟩])
    else pure targets
  | _ => if insn.flow.fallsThrough then pure (targets ++ [⟨index + 1, after⟩]) else pure targets

/-- Takes in that control reaches an instruction. The result says where it goes from there if the
instruction is reached for the first time. -/
def arrive (code : Code) (p : Progress) (a : Arrival) :
    Except StackError (Progress × List Arrival) := do
  match code.insns[a.index]? with
  | none => pure (p, [])
  | some insn =>
    match (p.depths[a.index]?).getD none with
    | some seen =>
      if seen = a.depth then pure (p, []) else .error (.inconsistent a.index seen a.depth)
    | none =>
      let effect ← insn.stackEffect
      let after ← depthAfter a.index a.depth effect
      let next ← arrivalsFrom code a.index a.depth after insn
      let deepest := max (max p.deepest a.depth) after
      pure (⟨p.depths.setIfInBounds a.index (some a.depth), deepest⟩, next)

/-- Takes in several arrivals in order. -/
def arriveAll (code : Code) : Progress → List Arrival →
    Except StackError (Progress × List Arrival)
  | p, [] => .ok (p, [])
  | p, a :: as => do
    let (p, next) ← arrive code p a
    let (p, rest) ← arriveAll code p as
    pure (p, next ++ rest)

/-- Follows control step by step, so many steps at most. -/
def follow (code : Code) : Nat → Progress → List Arrival → Except StackError Progress
  | 0, p, _ => .ok p
  | fuel + 1, p, as => do
    let (p, next) ← arriveAll code p as
    follow code fuel p next

end StackDepth

open StackDepth in
/-- The greatest depth of the operand stack. Each step but the last reaches an instruction for the
first time, so the number of steps is at most one more than that of the instructions. -/
def Code.stackDepth (code : Code) : Except StackError UInt16 := do
  let handlers ← code.regions.mapM fun r => (placeOf code r.handler).map fun i => Arrival.mk i 1
  let start : Progress := { depths := Array.replicate code.insns.length none }
  let p ← follow code (code.insns.length + 1) start (⟨0, 0⟩ :: handlers)
  pure p.deepest

end JvmPatch

import Msp430.Proofs.Simulation

/-!
# Register files that differ in one register

Two processors that differ in one register run side by side as long as nothing looks at that register or puts
anything into it: they ask the memory for the same accesses and end alike, still different in that register alone. No
operand looks at the constant generator, which reads as zero and takes nothing.
-/

namespace Msp430

open Access

namespace Operand

/-- The register that the operand names. -/
def register? : Operand → Option Reg
  | register r | indexed r _ | indirect r | autoIncrement r => some r
  | _ => none

/-- What the operand stands for does not depend on the register. -/
def Spares (q : Reg) (o : Operand) : Prop := q = .cg ∨ o.register? ≠ some q

end Operand

def Place.Spares (q : Reg) (p : Place) : Prop := q = .cg ∨ p ≠ .register q

/-- The effect neither depends on the register nor puts anything into it. -/
def Effect.Spares (q : Reg) : Effect → Prop
  | assign p _ => p.Spares q
  | push _ | call _ => q ≠ .sp
  | test _ | branch _ | idle => True

theorem Operand.Spares.place {q : Reg} {o : Operand} (h : o.Spares q) (rs : Registers) : (o.place rs).Spares q := by
  refine h.imp_right fun other => ?_
  cases o with
  | register r =>
    rintro ⟨⟩
    exact other rfl
  | _ => nofun

theorem SingleOp.effect_spares {q : Reg} {op : SingleOp} {p : Place} (hp : p.Spares q)
    (pushes : op.pushes = true → q ≠ .sp) (w : Width) (v : UInt16) (carry : Bool) :
    (op.effect w p v carry).Spares q := by
  cases op with
  | push => exact pushes rfl
  | call => exact pushes rfl
  | reti => trivial
  | _ => exact hp

theorem DoubleOp.effect_spares {q : Reg} {p : Place} (hp : p.Spares q) (op : DoubleOp) (r : AluResult) :
    (op.effect p r).Spares q := by
  unfold effect
  split
  · exact hp
  · trivial

namespace Registers

/-- Register `q` holds `v` in the one file and `v'` in the other, and all other registers agree. -/
structure DifferAt (q : Reg) (v v' : UInt16) (rs rs' : Registers) : Prop where
  left : rs.get q = v
  right : rs'.get q = v'
  agree : ∀ r, r ≠ q → rs.get r = rs'.get r

namespace DifferAt

theorem of_set (rs : Registers) (q : Reg) (v : UInt16) : (rs.set q v).DifferAt q v (rs.get q) rs where
  left := get_set_self rs q v
  right := rfl
  agree _ other := get_set_ne rs v other

variable {q : Reg} {v v' : UInt16} {rs rs' : Registers} (differ : rs.DifferAt q v v' rs')
include differ

theorem eq_set : rs = rs'.set q v := by
  apply ext
  intro r
  rw [get_set]
  split
  · next same => rw [same, differ.left]
  · next other => exact differ.agree r other

theorem set {r : Reg} (other : r ≠ q) (x : UInt16) : (rs.set r x).DifferAt q v v' (rs'.set r x) where
  left := (rs.get_set_ne x other.symm).trans differ.left
  right := (rs'.get_set_ne x other.symm).trans differ.right
  agree s apart := by
    have same := differ.agree s apart
    simp [get_set, same]

theorem base {r : Reg} (unread : q = .cg ∨ r ≠ q) : rs.base r = rs'.base r := by
  unfold Registers.base
  split
  · rfl
  · next notCg =>
    refine differ.agree r ?_
    rcases unread with rfl | other
    · exact notCg
    · exact other

theorem place {o : Operand} (spared : o.Spares q) : o.place rs = o.place rs' := by
  have unread {r : Reg} (names : o.register? = some r) : rs.base r = rs'.base r :=
    differ.base (spared.imp_right fun other same => other (same ▸ names))
  cases o with
  | indexed r x => simp only [Operand.place, unread rfl]
  | indirect r => simp only [Operand.place, unread rfl]
  | autoIncrement r => simp only [Operand.place, unread rfl]
  | _ => rfl

theorem advance {o : Operand} (spared : o.Spares q) (w : Width) :
    (o.advance w rs).DifferAt q v v' (o.advance w rs') := by
  cases o with
  | autoIncrement r =>
    simp only [Operand.advance]
    split
    · exact differ
    · next notCg =>
      have other : r ≠ q := by
        rintro rfl
        exact spared.elim notCg fun other => other rfl
      rw [differ.agree r other]
      exact differ.set other _
  | _ => exact differ

variable (notPc : q ≠ .pc) (notSr : q ≠ .sr)

section Status
include notSr

theorem flag (f : Flag) : rs.flag f = rs'.flag f := by
  unfold Registers.flag Registers.sr
  rw [differ.agree .sr notSr.symm]

theorem setFlag (f : Flag) (on : Bool) : (rs.setFlag f on).DifferAt q v v' (rs'.setFlag f on) := by
  have status : rs.sr = rs'.sr := differ.agree .sr notSr.symm
  unfold Registers.setFlag
  rw [status]
  exact differ.set notSr.symm _

theorem withStatus (s : Option Status) : (rs.withStatus s).DifferAt q v v' (rs'.withStatus s) := by
  cases s with
  | none => exact differ
  | some s =>
    have carry := differ.setFlag notSr .carry s.carry
    exact ((carry.setFlag notSr _ _).setFlag notSr _ _).setFlag notSr _ _

end Status

/-! ### Effects -/

theorem store? {e : Effect} (spared : e.Spares q) (notPc : q ≠ .pc) : e.store? rs = e.store? rs' := by
  have sp (notSp : q ≠ .sp) : rs.sp = rs'.sp := differ.agree .sp notSp.symm
  have pc : rs.pc = rs'.pc := differ.agree .pc notPc.symm
  cases e with
  | assign p r => cases p <;> rfl
  | push x => simp only [Effect.store?, sp spared]
  | call target => simp only [Effect.store?, sp spared, pc]
  | _ => rfl

include notSr in
theorem prepare {e : Effect} (spared : e.Spares q) : (e.prepare rs).DifferAt q v v' (e.prepare rs') := by
  have lowered (notSp : q ≠ .sp) : (rs.set .sp (rs.sp - 2)).DifferAt q v v' (rs'.set .sp (rs'.sp - 2)) := by
    have sp : rs.sp = rs'.sp := differ.agree .sp notSp.symm
    rw [sp]
    exact differ.set notSp.symm _
  cases e with
  | assign p r => exact differ.withStatus notSr r.status
  | test r => exact differ.withStatus notSr r.status
  | push x => exact lowered spared
  | call target => exact lowered spared
  | _ => exact differ

include notPc notSr in
theorem finish {w : Width} {e : Effect} (spared : e.Spares q) (accepted : e.refusal? = none) :
    (e.finish w rs).DifferAt q v v' (e.finish w rs') := by
  have prepared := differ.prepare notSr spared
  cases e with
  | assign p result =>
    cases p with
    | register r =>
      have other : r ≠ q := by
        rintro rfl
        rcases spared with rfl | other
        · cases accepted
        · exact other rfl
      exact prepared.set other _
    | _ => exact prepared
  | call target => exact prepared.set notPc.symm _
  | branch target => exact prepared.set notPc.symm _
  | _ => exact prepared

end DifferAt

end Registers

/-! ### Two dialogues -/

namespace Dialogue

variable {μ α β γ : Type} {R : Registers → Registers → Prop}

theorem bind_assoc (d : Dialogue α) (f : α → Registers → Dialogue β) (g : β → Registers → Dialogue γ) :
    (d.bind f).bind g = d.bind fun a rs => (f a rs).bind g := by
  induction d with
  | give a rs => rfl
  | fail fault rs => rfl
  | ask t rs next ih => simp only [bind, ih]

/-- The dialogues make the same accesses and end alike, with related registers wherever they stand. -/
inductive Parallel (R : Registers → Registers → Prop) : Dialogue α → Dialogue α → Prop
  | give {a : α} {rs rs' : Registers} : R rs rs' → Parallel R (.give a rs) (.give a rs')
  | fail {f : Fault} {rs rs' : Registers} : R rs rs' → Parallel R (.fail f rs) (.fail f rs')
  | ask {t : Touch} {rs rs' : Registers} {next next' : t.Reply → Dialogue α} :
      R rs rs' → (∀ reply, Parallel R (next reply) (next' reply)) → Parallel R (.ask t rs next) (.ask t rs' next')

theorem Parallel.bind {d d' : Dialogue α} {f f' : α → Registers → Dialogue β} (h : Parallel R d d')
    (hf : ∀ a rs rs', R rs rs' → Parallel R (f a rs) (f' a rs')) : Parallel R (d.bind f) (d'.bind f') := by
  induction h with
  | give related => exact hf _ _ _ related
  | fail related => exact .fail related
  | ask related _ ih => exact .ask related ih

theorem Parallel.run [Bus μ] {d d' : Dialogue α} (h : Parallel R d d') (m : μ) :
    Matches (fun x y => R x.registers y.registers ∧ x.memory = y.memory) (d.run m) (d'.run m) := by
  induction h generalizing m with
  | give related => exact ⟨rfl, related, rfl⟩
  | fail related => exact ⟨rfl, related, rfl⟩
  | @ask t rs rs' next next' related _ ih =>
    simp only [Dialogue.run]
    cases t.make m with
    | ok reply m' => exact ih reply m'
    | error f m' => exact ⟨rfl, related, rfl⟩

section DifferAt

variable {q : Reg} {v v' : UInt16} {rs rs' : Registers}

theorem load_parallel (differ : rs.DifferAt q v v' rs') {p : Place} (spared : p.Spares q) (w : Width) :
    Parallel (Registers.DifferAt q v v') (load w rs p) (load w rs' p) := by
  cases p with
  | register r =>
    have unread : q = .cg ∨ r ≠ q := spared.imp_right fun other same => other (same ▸ rfl)
    simp only [load, differ.base unread]
    exact .give differ
  | memory a => exact .ask differ fun _ => .give differ
  | literal x => exact .give differ

theorem commit_parallel (differ : rs.DifferAt q v v' rs') (notPc : q ≠ .pc) (notSr : q ≠ .sr) {e : Effect}
    (spared : e.Spares q) (w : Width) :
    Parallel (Registers.DifferAt q v v') (commit w e rs) (commit w e rs') := by
  have prepared := differ.prepare notSr spared
  unfold commit
  rw [differ.store? spared notPc]
  cases refused : e.refusal? with
  | some f => exact .fail prepared
  | none =>
    have finished := differ.finish notPc notSr (w := w) spared refused
    cases e.store? rs' with
    | none => exact .give finished
    | some store => exact .ask prepared fun _ => .give finished

/-- The operands may be different ones, as long as they are found in the same place. -/
theorem execute_single_parallel (notPc : q ≠ .pc) (notSr : q ≠ .sr) {op : SingleOp} {flag : Bool} {o o' : Operand}
    (same : o.place rs = o'.place rs') (spared : (o'.place rs').Spares q)
    (resolved : (o.advance (Instruction.single op flag o).width rs).DifferAt q v v'
      (o'.advance (Instruction.single op flag o).width rs'))
    (pushes : op.pushes = true → q ≠ .sp) :
    Parallel (Registers.DifferAt q v v') (execute (.single op flag o) rs) (execute (.single op flag o') rs') := by
  unfold execute
  simp only [gather, same]
  split
  · exact .fail resolved
  · rw [bind_assoc, bind_assoc]
    refine (load_parallel resolved spared _).bind fun x rs₁ rs₁' differ => ?_
    rw [differ.flag notSr]
    exact commit_parallel differ notPc notSr (SingleOp.effect_spares spared pushes _ _ _) _

theorem execute_jump_parallel (differ : rs.DifferAt q v v' rs') (notPc : q ≠ .pc) (notSr : q ≠ .sr)
    (c : Condition) (offset : Int16) :
    Parallel (Registers.DifferAt q v v') (execute (.jump c offset) rs) (execute (.jump c offset) rs') := by
  have pc : rs.pc = rs'.pc := differ.agree .pc notPc.symm
  have taken : c.holds rs = c.holds rs' := c.holds_congr (differ.agree .sr notSr.symm)
  unfold execute
  simp only [gather, pc, taken]
  refine commit_parallel differ notPc notSr ?_ _
  split <;> trivial

theorem execute_double_parallel (notPc : q ≠ .pc) (notSr : q ≠ .sr) {op : DoubleOp} {flag : Bool}
    {s s' destination : Operand} (same : s.place rs = s'.place rs') (spared : (s'.place rs').Spares q)
    (resolved : (s.advance (Width.ofByteFlag flag) rs).DifferAt q v v' (s'.advance (Width.ofByteFlag flag) rs'))
    (apart : destination.Spares q) :
    Parallel (Registers.DifferAt q v v') (execute (.double op flag s destination) rs)
      (execute (.double op flag s' destination) rs') := by
  unfold execute
  simp only [gather, same, Instruction.width]
  rw [bind_assoc, bind_assoc]
  refine (load_parallel resolved spared _).bind fun x rs₁ rs₁' differ => ?_
  have advanced := differ.advance apart (Width.ofByteFlag flag)
  have place := apart.place rs₁'
  rw [differ.place apart, bind_assoc, bind_assoc]
  refine Parallel.bind ?_ fun y rs₂ rs₂' differ => ?_
  · unfold loadDestination
    split
    · exact .give advanced
    · exact load_parallel advanced place _
  · rw [differ.flag notSr]
    split
    · exact .fail differ
    · exact commit_parallel differ notPc notSr (DoubleOp.effect_spares place op _) _

end DifferAt

end Dialogue

end Msp430

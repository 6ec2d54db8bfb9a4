import CS537.Log.Model

/-!
# The buffers of the log

What the log has of the buffer cache: the blocks that are in it, with the flag `B_DIRTY`, and the disk.
The log comes to them only by the accesses of this module, and what becomes of them is a function of
these.
-/

namespace CS537.Log

open Foundation

/-- The buffers that have been read, over the disk. -/
structure Buffers where
  buf : ℕ → Option Buf
  disk : ℕ → Block

inductive BufferAccess
  /-- the block is in the cache from now on -/
  | read (b : ℕ)
  | evict (b : ℕ)
  | logWrite (b : ℕ) (data : Block)
  | bwrite (b : ℕ) (data : Block)
  | crash

namespace Buffers

variable (u : Buffers)

def start (disk : ℕ → Block) : Buffers := ⟨fun _ ↦ none, disk⟩

def set (b : ℕ) (x : Buf) : Buffers := { u with buf := Function.update u.buf b (some x) }

def step : BufferAccess → Option Buffers
  | .read b => some (u.set b ((u.buf b).getD ⟨u.disk b, false⟩))
  | .evict b => if (u.buf b).any Buf.dirty then none else some { u with buf := Function.update u.buf b none }
  | .logWrite b data => some (u.set b ⟨data, true⟩)
  | .bwrite b data => some { u.set b ⟨data, false⟩ with disk := Function.update u.disk b data }
  | .crash => some (.start u.disk)

end Buffers

/-- The buffers as a machine. -/
def bufferMachine (disk : ℕ → Block) : Machine Buffers BufferAccess where
  init u := u = .start disk
  step u access := u.step access

namespace LogState

variable {ι : Type*} [DecidableEq ι] (area : LogArea) {s t : LogState ι} {l : LogLabel ι} {d : ℕ → Block}

omit [DecidableEq ι] in
def buffers (s : LogState ι) : Buffers := ⟨s.buf, s.disk⟩

omit [DecidableEq ι] in
/-- The accesses of a step. -/
def accesses (s : LogState ι) : LogLabel ι → List BufferAccess
  | .appendWrite o =>
    match s.ops o with
    | .logging b data => if b ∉ s.lh ∧ LOGSIZE ≤ s.lh.length then [] else [.logWrite b data]
    | _ => []
  | .read b => [.read b]
  | .evict b => [.evict b]
  | .proceed =>
    match s.activity with
    | .writeLog tail => (s.lh[tail]?).toList.map fun b ↦ .bwrite (area.start + tail + 1) (s.bread b)
    | .writeHead | .clearHead => [.bwrite area.start (writeHeader s.lh (s.bread area.start))]
    | .installTrans tail => (s.lh[tail]?).toList.map fun b ↦ .bwrite b (s.bread (area.start + tail + 1))
    | _ => []
  | .crash => [.crash]
  | .beginOp _ | .checkWrite _ _ _ | .endOp _ => []

variable {area}

theorem appendWrite_accesses {o : ι} (hs : s.appendWrite o = some t) :
    (bufferMachine d).run s.buffers (s.accesses area (.appendWrite o)) = some t.buffers := by
  unfold appendWrite at hs
  split at hs
  case h_1 b data hop =>
    simp only [accesses, hop]
    split_ifs at hs with hmem hfull
    · rw [if_neg fun hno ↦ hno.1 hmem, ← Option.some.inj hs]
      rfl
    · rw [if_pos ⟨hmem, hfull⟩, ← Option.some.inj hs]
      rfl
    · rw [if_neg fun hno ↦ hfull hno.2, ← Option.some.inj hs]
      rfl
  case h_2 => cases hs

/-- What a step does to the buffers is what its accesses do. -/
theorem step_accesses (hs : s.step area l = some t) :
    (bufferMachine d).run s.buffers (s.accesses area l) = some t.buffers := by
  cases step_cases hs with
  | absorb | append | overrun =>
    obtain ⟨-, hs⟩ := Option.ite_none_right_eq_some.mp hs
    exact appendWrite_accesses hs
  | evict hclean =>
    have hstep : (bufferMachine d).step s.buffers (.evict _) = some _ :=
      if_neg (by rw [buffers, hclean]; exact Bool.false_ne_true)
    exact Machine.run_cons_of_step _ hstep []
  | writeLog hactivity hb | install hactivity hb =>
    simp only [accesses, hactivity, hb]
    rfl
  | logWritten hactivity hend | installed hactivity hend =>
    simp only [accesses, hactivity, List.getElem?_eq_none_iff.mpr hend]
    rfl
  | readHead hactivity | writeHead hactivity | clearHead hactivity | leave hactivity =>
    simp only [accesses, hactivity]
    rfl
  | beginOp | tooBig | outside | checkWrite | endTwice | endLast | endOther | read | crash => rfl

/-- The log comes to its buffers by the accesses of its steps. -/
theorem run_accesses {d : EmptyLog area} {ls : List (LogLabel ι)}
    (hrun : (area.machine d).run (.boot d.disk) ls = some t) :
    (bufferMachine d.disk).run (.start d.disk) ((area.machine d).outputs (accesses area) (.boot d.disk) ls) =
      some t.buffers := by
  obtain ⟨u, hu, hbuffers⟩ := Machine.run_outputs (N := bufferMachine d.disk) (R := fun s u ↦ s.buffers = u)
    (fun s u l t hsu hs ↦ ⟨_, hsu ▸ step_accesses hs, rfl⟩) rfl hrun
  exact hbuffers ▸ hu

end LogState

end CS537.Log

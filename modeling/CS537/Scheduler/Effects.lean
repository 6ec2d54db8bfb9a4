import CS537.Scheduler.Sections

/-!
# What a section can do

The sections but the pass and `setpri` have one of eight effects on the kernel.  The processors and
the calls of `fork2` keep the processes they work on, and the queues are left alone as long as
`wait` reaps no process that is still queued.
-/

namespace CS537.Scheduler

open Foundation

variable {ncpu : ℕ}

namespace Kernel

/-- The sections under study: no `setpri`. -/
def NoSetpri (_ : Kernel ncpu) : Section ncpu → Prop
  | .setpri _ _ => False
  | _ => True

/-- No `setpri`, and every `wait` that reaps a process finds its `put_in = -1`. -/
def ReapsUnqueued (k : Kernel ncpu) : Section ncpu → Prop
  | .setpri _ _ => False
  | .wait c => ∀ p q, k.myproc c = some p → k.ptable.reapable p = some q →
      (k.ptable.proc q).putIn = none
  | _ => True

variable {k k' : Kernel ncpu} {s : Section ncpu} {c : Fin ncpu} {p : Slot} {pri : Level}

theorem ReapsUnqueued.reaps (h : k.ReapsUnqueued s) :
    ∀ c p q, s = .wait c → k.myproc c = some p → k.ptable.reapable p = some q →
      (k.ptable.proc q).putIn = none := by
  intro c p q hs
  subst hs
  exact h p q

theorem cpuProc_of_myproc (h : k.myproc c = some p) : k.cpuProc c = some p :=
  (Option.filter_eq_some_iff.mp h).1

theorem forking_of_myproc (h : k.myproc c = some p) : k.forking p = none := by
  have hnone := (Option.filter_eq_some_iff.mp h).2
  simpa using hnone

theorem forking_of_forkproc {allocated : Bool} {pf : Slot × Fork}
    (h : k.forkproc c allocated = some pf) :
    k.forking pf.1 = some pf.2 ∧ pf.2.allocated = allocated := by
  obtain ⟨p, -, h⟩ := Option.bind_eq_some_iff.mp h
  obtain ⟨f, hf, rfl⟩ := Option.map_eq_some_iff.mp h
  obtain ⟨hforking, hallocated⟩ := Option.filter_eq_some_iff.mp hf
  exact ⟨hforking, by simpa using hallocated⟩

/-- `fork2` has got the slot `np`. -/
def forkTaken (k : Kernel ncpu) (curproc np : Slot) (pri : Level) : Kernel ncpu :=
  { k with
    ptable := k.ptable.setProc np { k.ptable.proc np with state := .embryo, pid := k.nextpid }
    nextpid := k.nextpid + 1
    forking := Function.update k.forking curproc (some ⟨np, pri, false⟩) }

/-- The child of `fork2` has got its queue node, unless none was free. -/
def forkAllocated (k : Kernel ncpu) (curproc : Slot) (f : Fork) : Kernel ncpu :=
  { k with
    ptable := k.ptable.takeNode f.np
    forking := Function.update k.forking curproc (some { f with allocated := true }) }

/-- The effects of the sections but the pass and `setpri`: nothing happens, sleeping processes are
woken, a process stops to run, a child is reaped, and the child of `fork2` gets its slot or its
node, is dropped or becomes runnable. -/
inductive Effect (k : Kernel ncpu) : Section ncpu → Kernel ncpu → Prop
  | idle {s : Section ncpu} : Effect k s k
  | rouse {s : Section ncpu} {t : PTable} : k.ptable.Rouses t → Effect k s (k.setTable t)
  | stop {s : Section ncpu} {c : Fin ncpu} {p : Slot} {u : PTable} {v : Proc} :
      k.cpuProc c = some p → k.ptable.Rouses u →
      v = { u.proc p with state := v.state, chan := v.chan } → v.state.Alive →
      Effect k s (k.sched c (u.setProc p v))
  | reap {c : Fin ncpu} {p q : Slot} {t : PTable} : k.myproc c = some p →
      k.ptable.reapable p = some q → k.ptable.reap q = some t →
      Effect k (.wait c) (k.setTable t)
  | take {s : Section ncpu} {p np : Slot} {pri : Level} : k.forking p = none →
      (k.ptable.proc np).state = .unused → Effect k s (k.forkTaken p np pri)
  | node {s : Section ncpu} {p : Slot} {f : Fork} : k.forking p = some f → f.allocated = false →
      Effect k s (k.forkAllocated p f)
  | drop {s : Section ncpu} {p : Slot} {f : Fork} : k.forking p = some f →
      (f.allocated = true → ∃ c, s = .copyuvmDone c false) →
      Effect k s (k.endFork p (k.ptable.setState f.np .unused))
  | complete {s : Section ncpu} {p : Slot} {f : Fork} {t : PTable} : k.forking p = some f →
      f.allocated = true → k.ptable.completeFork p f.np f.pri = some t →
      Effect k s (k.endFork p t)

theorem effect_fork2 (hp : k.myproc c = some p) : k.Effect s (k.fork2 p pri).2 := by
  unfold fork2
  cases htake : k.ptable.takeSlot k.nextpid with
  | none => exact .idle
  | some taken =>
    obtain ⟨np, hfind, rfl⟩ := Option.map_eq_some_iff.mp htake
    have hunused : (k.ptable.proc np).state = .unused := by simpa using List.find?_some hfind
    exact .take (forking_of_myproc hp) hunused

theorem effect_wait {r : Option ℤ × Kernel ncpu} (hp : k.myproc c = some p)
    (hr : k.wait c p = some r) : k.Effect (.wait c) r.2 := by
  unfold wait at hr
  cases hfind : k.ptable.reapable p with
  | some q =>
    rw [hfind] at hr
    obtain ⟨t, ht, rfl⟩ := Option.map_eq_some_iff.mp hr
    exact .reap hp hfind ht
  | none =>
    rw [hfind] at hr
    dsimp only at hr
    split at hr
    · obtain rfl := Option.some.inj hr
      exact .idle
    · obtain rfl := Option.some.inj hr
      exact .stop (cpuProc_of_myproc hp) (.refl _) rfl (by simp [ProcState.Alive])

/-- Every step is a pass, a call of `setpri` or has one of the effects. -/
theorem step_effect (hs : k.step s = some k') :
    (∃ c, s = .schedule c) ∨ (∃ pid pri, s = .setpri pid pri) ∨ k.Effect s k' := by
  cases s with
  | schedule c => exact .inl ⟨c, rfl⟩
  | setpri pid pri => exact .inr (.inl ⟨pid, pri, rfl⟩)
  | yield c =>
    obtain ⟨p, hc, rfl⟩ := Option.map_eq_some_iff.mp hs
    exact .inr (.inr (.stop hc (.refl _) rfl (by simp [ProcState.Alive])))
  | sleep c chan =>
    obtain ⟨p, hp, rfl⟩ := Option.map_eq_some_iff.mp hs
    exact .inr (.inr (.stop (cpuProc_of_myproc hp) (.refl _) rfl (by simp [ProcState.Alive])))
  | wakeup chan =>
    obtain rfl := Option.some.inj hs
    exact .inr (.inr (.rouse (k.ptable.rouses_wakeup1 (some chan))))
  | kill pid =>
    obtain rfl := Option.some.inj hs
    exact .inr (.inr (.rouse (k.ptable.rouses_kill pid)))
  | exit c =>
    obtain ⟨p, hp, hs⟩ := Option.bind_eq_some_iff.mp hs
    obtain ⟨-, hs⟩ := Option.ite_none_left_eq_some.mp hs
    obtain rfl := Option.some.inj hs
    obtain ⟨u, hrouses, hexit⟩ := k.ptable.exists_exit p
    rw [hexit]
    exact .inr (.inr (.stop (cpuProc_of_myproc hp) hrouses rfl (by simp [ProcState.Alive])))
  | wait c =>
    obtain ⟨p, hp, hs⟩ := Option.bind_eq_some_iff.mp hs
    obtain ⟨r, hr, rfl⟩ := Option.map_eq_some_iff.mp hs
    exact .inr (.inr (effect_wait hp hr))
  | fork c =>
    obtain ⟨p, hp, rfl⟩ := Option.map_eq_some_iff.mp hs
    exact .inr (.inr (effect_fork2 hp))
  | fork2 c pri =>
    obtain ⟨p, hp, rfl⟩ := Option.map_eq_some_iff.mp hs
    exact .inr (.inr (effect_fork2 hp))
  | kallocDone c success =>
    obtain ⟨pf, hpf, rfl⟩ := Option.map_eq_some_iff.mp hs
    obtain ⟨hf, hallocated⟩ := forking_of_forkproc hpf
    cases success with
    | true => exact .inr (.inr (.node hf hallocated))
    | false => exact .inr (.inr (.drop hf (by simp [hallocated])))
  | copyuvmDone c success =>
    obtain ⟨pf, hpf, hs⟩ := Option.bind_eq_some_iff.mp hs
    obtain ⟨r, hr, rfl⟩ := Option.map_eq_some_iff.mp hs
    obtain ⟨hf, hallocated⟩ := forking_of_forkproc hpf
    cases success with
    | true =>
      obtain ⟨t, ht, rfl⟩ := Option.map_eq_some_iff.mp hr
      exact .inr (.inr (.complete hf hallocated ht))
    | false =>
      obtain rfl := Option.some.inj hr
      exact .inr (.inr (.drop hf fun _ ↦ ⟨c, rfl⟩))

/-- The effects give no processor a new process. -/
theorem Effect.cpuProc (h : k.Effect s k') :
    k'.lastPicked = k.lastPicked ∧ ∀ c p, k'.cpuProc c = some p → k.cpuProc c = some p := by
  cases h with
  | stop =>
    refine ⟨rfl, fun c p hp ↦ ?_⟩
    simp only [sched, Function.update_apply] at hp
    split at hp
    · cases hp
    · exact hp
  | _ => exact ⟨rfl, fun _ _ ↦ id⟩

end Kernel

/-! ## The processes at work -/

/-- The processes that run and those that are being created stay in their states. -/
def PTable.Holds (t : PTable) (p : Slot) (t' : PTable) : Prop :=
  ((t.proc p).state = .running → (t'.proc p).state = .running) ∧
    ((t.proc p).state = .embryo → (t'.proc p).state = .embryo)

namespace PTable

variable {t t' : PTable} {p q : Slot}

theorem holds_of_eq (h : (t'.proc p).state = (t.proc p).state) : t.Holds p t' :=
  ⟨h.trans, h.trans⟩

theorem holds_setProc_of_ne {v : Proc} (h : q ≠ p) : t.Holds q (t.setProc p v) :=
  holds_of_eq (by rw [setProc_proc_of_ne h])

theorem Wakes.holds (h : t.Wakes t') (p : Slot) : t.Holds p t' := by
  constructor
  · intro hs
    rw [h.state_eq (by simp [hs]), hs]
  · intro hs
    rw [h.state_eq (by simp [hs]), hs]

theorem reapable_eq (h : t.reapable p = some q) :
    (t.proc q).parent = some p ∧ (t.proc q).state = .zombie := by
  simpa using List.find?_some h

/-- What `allocproc` leaves of the process when it gives it a node. -/
theorem takeNode_keeps {α : Type} (f : Proc → α)
    (hf : ∀ v ticks qtail putIn qNode,
      f { v with ticks := ticks, qtail := qtail, putIn := putIn, qNode := qNode } = f v)
    (np q : Slot) : f ((t.takeNode np).proc q) = f (t.proc q) := by
  unfold takeNode
  dsimp only
  split
  · exact setProc_keeps f (hf _ _ _ _ (t.proc np).qNode) q
  · exact setProc_keeps f (hf _ _ _ _ _) q

theorem takeNode_state (np q : Slot) : ((t.takeNode np).proc q).state = (t.proc q).state :=
  takeNode_keeps Proc.state (fun _ _ _ _ _ ↦ rfl) np q

end PTable

/-- The processors and the calls of `fork2` hold the processes they work on. -/
structure ProcsInv (k : Kernel ncpu) : Prop where
  running : ∀ c p, k.cpuProc c = some p → (k.ptable.proc p).state = .running
  distinct : ∀ c c' p, k.cpuProc c = some p → k.cpuProc c' = some p → c = c'
  embryo : ∀ p f, k.forking p = some f → (k.ptable.proc f.np).state = .embryo
  forks : ∀ p p' f f', k.forking p = some f → k.forking p' = some f' → f.np = f'.np → p = p'

namespace ProcsInv

variable {k k' : Kernel ncpu} {s : Section ncpu} {c : Fin ncpu} {p np : Slot} {t' : PTable}
  {f : Fork}

/-- The kernel goes on with the same processes. -/
theorem of_holds (h : ProcsInv k) (hcpu : k'.cpuProc = k.cpuProc) (hfork : k'.forking = k.forking)
    (hholds : ∀ p, k.ptable.Holds p k'.ptable) : ProcsInv k' where
  running c p hc := (hholds p).1 (h.running c p (hcpu ▸ hc))
  distinct c c' p := by
    rw [hcpu]
    exact h.distinct c c' p
  embryo p f hf := (hholds f.np).2 (h.embryo p f (hfork ▸ hf))
  forks p p' f f' := by
    rw [hfork]
    exact h.forks p p' f f'

/-- A process returns to the scheduler. -/
theorem sched (h : ProcsInv k) (hc : k.cpuProc c = some p)
    (hholds : ∀ q, q ≠ p → k.ptable.Holds q t') : ProcsInv (k.sched c t') where
  running c' q hq := by
    simp only [Kernel.sched] at hq ⊢
    by_cases hcc : c' = c
    · subst hcc
      simp at hq
    · rw [Function.update_of_ne hcc] at hq
      apply (hholds q ?_).1 (h.running c' q hq)
      intro hqp
      exact hcc (h.distinct c' c q hq (hqp ▸ hc))
  distinct c₁ c₂ q h₁ h₂ := by
    simp only [Kernel.sched, Function.update_apply] at h₁ h₂
    split at h₁
    · cases h₁
    · split at h₂
      · cases h₂
      · exact h.distinct c₁ c₂ q h₁ h₂
  embryo q f hf := by
    have hembryo := h.embryo q f hf
    apply (hholds f.np ?_).2 hembryo
    intro hnp
    rw [hnp, h.running c p hc] at hembryo
    cases hembryo
  forks := h.forks

/-- A runnable process is dispatched on an idle processor. -/
theorem dispatch (h : ProcsInv k) (hrunnable : (k.ptable.proc p).state = .runnable)
    (hrunning : (t'.proc p).state = .running) (hholds : ∀ q, q ≠ p → k.ptable.Holds q t') :
    ProcsInv { k with
      ptable := t', cpuProc := Function.update k.cpuProc c (some p), lastPicked := some p } where
  running c' q hq := by
    dsimp only at hq ⊢
    by_cases hcc : c' = c
    · subst hcc
      rw [Function.update_self] at hq
      rwa [← Option.some.inj hq]
    · rw [Function.update_of_ne hcc] at hq
      have hrun := h.running c' q hq
      apply (hholds q ?_).1 hrun
      intro hqp
      rw [hqp, hrunnable] at hrun
      cases hrun
  distinct := by
    have hfree : ∀ c', k.cpuProc c' ≠ some p := by
      intro c' hc'
      have hrun := h.running c' p hc'
      rw [hrunnable] at hrun
      cases hrun
    intro c₁ c₂ q h₁ h₂
    simp only [Function.update_apply] at h₁ h₂
    split at h₁ <;> split at h₂
    · next h₁' h₂' => rw [h₁', h₂']
    · exact absurd (h₂.trans h₁.symm) (hfree c₂)
    · exact absurd (h₁.trans h₂.symm) (hfree c₁)
    · exact h.distinct c₁ c₂ q h₁ h₂
  embryo q f hf := by
    have hembryo := h.embryo q f hf
    apply (hholds f.np ?_).2 hembryo
    intro hnp
    rw [hnp, hrunnable] at hembryo
    cases hembryo
  forks := h.forks

/-- `fork2` takes a slot. -/
theorem forkTaken (h : ProcsInv k) (hunused : (k.ptable.proc np).state = .unused) {pri : Level} :
    ProcsInv (k.forkTaken p np pri) := by
  have hnew : ∀ q f, k.forking q = some f → f.np ≠ np := by
    intro q f hf hnp
    have hembryo := h.embryo q f hf
    rw [hnp, hunused] at hembryo
    cases hembryo
  refine { running := ?_, distinct := h.distinct, embryo := ?_, forks := ?_ }
  · intro c q hc
    have hrunning := h.running c q hc
    apply (PTable.holds_setProc_of_ne ?_).1 hrunning
    intro hq
    rw [hq, hunused] at hrunning
    cases hrunning
  · intro q f hf
    simp only [Kernel.forkTaken] at hf ⊢
    by_cases hqp : q = p
    · subst hqp
      rw [Function.update_self] at hf
      rw [← Option.some.inj hf, PTable.setProc_proc_self]
    · rw [Function.update_of_ne hqp] at hf
      exact (PTable.holds_setProc_of_ne (hnew q f hf)).2 (h.embryo q f hf)
  · intro q₁ q₂ f₁ f₂ h₁ h₂ heq
    simp only [Kernel.forkTaken, Function.update_apply] at h₁ h₂
    split at h₁ <;> split at h₂
    · next h₁' h₂' => rw [h₁', h₂']
    · rw [← Option.some.inj h₁] at heq
      exact absurd heq.symm (hnew q₂ f₂ h₂)
    · rw [← Option.some.inj h₂] at heq
      exact absurd heq (hnew q₁ f₁ h₁)
    · exact h.forks q₁ q₂ f₁ f₂ h₁ h₂ heq

/-- `fork2` goes on with the child that it has got. -/
theorem forkAllocated (h : ProcsInv k) (hf : k.forking p = some f) :
    ProcsInv (k.forkAllocated p f) := by
  have hback : ∀ q g, (k.forkAllocated p f).forking q = some g →
      ∃ g₀, k.forking q = some g₀ ∧ g₀.np = g.np := by
    intro q g hg
    simp only [Kernel.forkAllocated] at hg
    by_cases hqp : q = p
    · subst hqp
      rw [Function.update_self] at hg
      exact ⟨f, hf, by rw [← Option.some.inj hg]⟩
    · rw [Function.update_of_ne hqp] at hg
      exact ⟨g, hg, rfl⟩
  refine { running := ?_, distinct := h.distinct, embryo := ?_, forks := ?_ }
  · exact fun c q hc ↦ (PTable.takeNode_state f.np q).trans (h.running c q hc)
  · intro q g hg
    obtain ⟨g₀, hg₀, hnp⟩ := hback q g hg
    rw [← hnp]
    exact (PTable.takeNode_state f.np g₀.np).trans (h.embryo q g₀ hg₀)
  · intro q₁ q₂ g₁ g₂ h₁ h₂ heq
    obtain ⟨a₁, ha₁, hnp₁⟩ := hback q₁ g₁ h₁
    obtain ⟨a₂, ha₂, hnp₂⟩ := hback q₂ g₂ h₂
    exact h.forks q₁ q₂ a₁ a₂ ha₁ ha₂ (by rw [hnp₁, hnp₂, heq])

/-- A call of `fork2` ends. -/
theorem endFork (h : ProcsInv k) (hf : k.forking p = some f)
    (hholds : ∀ q, q ≠ f.np → k.ptable.Holds q t') : ProcsInv (k.endFork p t') where
  running c q hc := by
    have hrunning := h.running c q hc
    apply (hholds q ?_).1 hrunning
    intro hq
    rw [hq, h.embryo p f hf] at hrunning
    cases hrunning
  distinct := h.distinct
  embryo q g hg := by
    simp only [Kernel.endFork] at hg ⊢
    by_cases hqp : q = p
    · subst hqp
      simp at hg
    · rw [Function.update_of_ne hqp] at hg
      apply (hholds g.np ?_).2 (h.embryo q g hg)
      intro hnp
      exact hqp (h.forks q p g f hg hf hnp)
  forks q₁ q₂ g₁ g₂ h₁ h₂ := by
    simp only [Kernel.endFork, Function.update_apply] at h₁ h₂
    split at h₁
    · cases h₁
    · split at h₂
      · cases h₂
      · exact h.forks q₁ q₂ g₁ g₂ h₁ h₂

theorem effect (h : ProcsInv k) (he : k.Effect s k') : ProcsInv k' := by
  cases he with
  | idle => exact h
  | rouse hrouses => exact h.of_holds rfl rfl hrouses.holds
  | stop hc hrouses =>
    apply h.sched hc
    intro q hq
    have hheld := hrouses.holds q
    unfold PTable.Holds at hheld ⊢
    rwa [PTable.setProc_proc_of_ne hq]
  | @reap c p q t hp hq ht =>
    refine h.of_holds rfl rfl ?_
    obtain ⟨n, -, rfl⟩ := Option.map_eq_some_iff.mp ht
    have hzombie := (PTable.reapable_eq hq).2
    intro r
    by_cases hr : r = q
    · rw [hr]
      exact ⟨fun hs ↦ by simp [hzombie] at hs, fun hs ↦ by simp [hzombie] at hs⟩
    · exact PTable.holds_of_eq (by simp [Kernel.setTable, hr])
  | take _ hunused => exact h.forkTaken hunused
  | node hf => exact h.forkAllocated hf
  | drop hf => exact h.endFork hf fun q hq ↦ PTable.holds_setProc_of_ne hq
  | complete hf _ ht =>
    apply h.endFork hf
    obtain ⟨n, -, rfl⟩ := Option.map_eq_some_iff.mp ht
    exact fun q hq ↦ PTable.holds_of_eq (by simp [hq])

theorem userinit : ProcsInv (Kernel.userinit : Kernel ncpu) where
  running _ _ hc := nomatch hc
  distinct _ _ _ hc := nomatch hc
  embryo _ _ hf := nomatch hf
  forks _ _ _ _ hf := nomatch hf

/-- A section that reaps no queued process leaves the queues alone. -/
theorem undisturbed (h : ProcsInv k) (howned : k.ptable.Owned) (he : k.Effect s k')
    (hreap : ∀ c p q, s = .wait c → k.myproc c = some p → k.ptable.reapable p = some q →
      (k.ptable.proc q).putIn = none) : k.ptable.Undisturbed k'.ptable := by
  cases he with
  | idle => exact howned.rouses (.refl _)
  | rouse hrouses => exact howned.rouses hrouses
  | @stop _ c p u v hc hrouses hv halive =>
    have hu := howned.rouses hrouses
    have hrunning : (u.proc p).state = .running := (hrouses.holds p).1 (h.running c p hc)
    apply hu.trans
    apply hu.owned.setProc (by simp [hrunning]) (by rw [hv]) (by rw [hv]) (by rw [hv])
    · have hp : (u.proc p).state.Alive := by simp [hrunning, ProcState.Alive]
      exact ⟨fun _ ↦ hp, fun _ ↦ halive⟩
    · exact .inl ⟨by rw [hv], by rw [hv]⟩
  | @reap c p q t hp hq ht => exact howned.reap (hreap c p q rfl hp hq) ht
  | take _ hunused =>
    apply howned.setProc
    · simp [hunused]
    · rfl
    · rfl
    · rfl
    · simp [hunused, ProcState.Alive]
    · exact .inl ⟨rfl, rfl⟩
  | node hf => exact howned.takeNode (h.embryo _ _ hf)
  | drop hf =>
    have hembryo := h.embryo _ _ hf
    apply howned.setProc
    · simp [hembryo]
    · rfl
    · rfl
    · rfl
    · simp [hembryo, ProcState.Alive]
    · exact .inl ⟨rfl, rfl⟩
  | complete hf _ ht => exact howned.completeFork (h.embryo _ _ hf) ht

end ProcsInv

end CS537.Scheduler

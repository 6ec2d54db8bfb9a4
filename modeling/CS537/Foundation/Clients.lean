import CS537.Foundation.Endings

/-!
# Clients of an interface

A client makes calls of an interface and goes on with what they return.  What it does on one level of the
interface it does on another one whose calls match.
-/

namespace CS537.Foundation

/-- A program over calls `ι` with answers `α` that returns a `β`. -/
inductive Client (ι α β : Type)
  | done (b : β)
  | call (l : ι) (next : α → Client ι α β)
  | stop

namespace Client

variable {ι α β γ σ τ ε δ : Type}

/-- One call. -/
def ask (l : ι) : Client ι α α := .call l .done

def bind : Client ι α β → (β → Client ι α γ) → Client ι α γ
  | .done b, f => f b
  | .call l next, f => .call l fun a ↦ (next a).bind f
  | .stop, _ => .stop

instance instMonad : Monad (Client ι α) where
  pure := .done
  bind := bind

/-- The client on the calls of a level. -/
def run (call : ι → Program σ ε α) (halt : ε) : Client ι α β → Program σ ε β
  | .done b => pure b
  | .call l next => call l >>= fun a ↦ (next a).run call halt
  | .stop => throw halt

/-- From `s` the client returns `b` in state `t`, by calls that are allowed. -/
def Returns (allowed : σ → ι → Prop) (call : ι → Program σ ε α) : Client ι α β → σ → β → σ → Prop
  | .done b, s, b', t => b' = b ∧ t = s
  | .call l next, s, b, t => ∃ a u, allowed s l ∧ call l s = .ok (a, u) ∧ (next a).Returns allowed call u b t
  | .stop, _, _, _ => False

section

variable {allowed : σ → ι → Prop} {call : ι → Program σ ε α} {s t u : σ} {a : α} {b : β} {c : γ} {l : ι}
  {m : Client ι α β} {f : β → Client ι α γ}

theorem Returns.pure : (Pure.pure b : Client ι α β).Returns allowed call s b s := ⟨rfl, rfl⟩

theorem Returns.ask (hl : allowed s l) (hrun : call l s = .ok (a, t)) :
    (Client.ask l).Returns allowed call s a t := ⟨a, t, hl, hrun, rfl, rfl⟩

theorem Returns.bind (hm : m.Returns allowed call s b t) (hf : (f b).Returns allowed call t c u) :
    (m >>= f).Returns allowed call s c u := by
  induction m generalizing s with
  | done b' =>
    obtain ⟨rfl, rfl⟩ := hm
    exact hf
  | call l next ih =>
    obtain ⟨a, v, hl, hrun, hnext⟩ := hm
    exact ⟨a, v, hl, hrun, ih a hnext⟩
  | stop => exact hm.elim

variable {R : τ → σ → Prop} {E : ι → δ → Prop} {fault : δ → ε} {call' : ι → Program τ δ α} {halt : δ} {x : τ}

/-- What the client does on one level it does on the other. -/
theorem Returns.matches (hcall : ∀ x s l, R x s → allowed s l → Matches R (E l) fault (call' l) (call l) x s)
    (hR : R x s) (hm : m.Returns allowed call s b t) :
    Ends (m.run call' halt) x (fun b' y ↦ b' = b ∧ R y t) fun e ↦ ∃ l, E l e := by
  induction m generalizing x s with
  | done b' =>
    obtain ⟨rfl, rfl⟩ := hm
    exact .pure ⟨rfl, hR⟩
  | call l next ih =>
    obtain ⟨a, v, hl, hrun, hnext⟩ := hm
    refine ((hcall x s l hR hl).weaken (fun _ _ ↦ id) fun e he ↦ ?_).bind ?_
    · rcases he with he | he
      · exact ⟨l, he⟩
      · rw [hrun] at he
        cases he
    · intro a' y ⟨v', hv', hR'⟩
      obtain ⟨rfl, rfl⟩ := Prod.mk.inj (Except.ok.inj (hrun.symm.trans hv'))
      exact ih a hR' hnext
  | stop => exact hm.elim

end

end Client

end CS537.Foundation

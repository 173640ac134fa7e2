import SignalisCodec.Theory.Drain
import SignalisCodec.Theory.Fallible

/-! Fallible loops that keep a log beside their state. Without the log a run is the plain run; what
every step keeps of the log, whether it succeeds or fails, the run keeps. -/
namespace Audit
open Drain Fallible

universe u
variable {ε σ τ α β : Type u}

/-- A result without the log. -/
def plain : EStateM.Result ε (σ × List τ) α → EStateM.Result ε σ α
  | .ok a s => .ok a s.1
  | .error e s => .error e s.1

/-- The log of a result, of a failure too. -/
def logOf : EStateM.Result ε (σ × List τ) α → List τ
  | .ok _ s => s.2
  | .error _ s => s.2

/-- A result without the state it leaves. -/
def outcome : EStateM.Result ε σ α → Except ε α
  | .ok a _ => .ok a
  | .error e _ => .error e

/-- A computation that writes nothing. -/
def quiet (x : EStateM ε σ α) : EStateM ε (σ × List τ) α := fun s =>
  match x s.1 with
  | .ok a s' => .ok a (s',s.2)
  | .error e s' => .error e (s',s.2)

def write (entries : List τ) : EStateM ε (σ × List τ) PUnit := fun s => .ok ⟨⟩ (s.1,s.2 ++ entries)

/-- `drain` with the state it ends in, that of the failing step if one fails. -/
def run (L : Loop ε σ) (body : EStateM ε (σ × List τ) α) (s : σ × List τ) (out : List α) :
    EStateM.Result ε (σ × List τ) (List α) :=
  if L.done s.1 then .ok out s
  else
    match body s with
    | .ok a s' => if L.size s'.1 < L.size s.1 then run L body s' (out ++ [a]) else .error L.stuck s'
    | .error e s' => .error e s'
termination_by L.size s.1

lemma quiet_eq_ok_iff {x : EStateM ε σ α} {s s' : σ × List τ} {a : α} :
    quiet x s = .ok a s' ↔ x s.1 = .ok a s'.1 ∧ s'.2 = s.2 := by
  obtain ⟨r',l'⟩ := s'
  unfold quiet
  cases x s.1 <;> simp [eq_comm,and_assoc]

lemma quiet_eq_error_iff {x : EStateM ε σ α} {s s' : σ × List τ} {e : ε} :
    quiet x s = .error e s' ↔ x s.1 = .error e s'.1 ∧ s'.2 = s.2 := by
  obtain ⟨r',l'⟩ := s'
  unfold quiet
  cases x s.1 <;> simp [eq_comm,and_assoc]

/-- `x` does what `y` does, and keeps a log besides. -/
def Audits (x : EStateM ε (σ × List τ) α) (y : EStateM ε σ α) : Prop := ∀ s, plain (x s) = y s.1

namespace Audits

lemma quiet (y : EStateM ε σ α) : Audits (quiet y : EStateM ε (σ × List τ) α) y := by
  intro s
  unfold Audit.quiet
  cases y s.1 <;> rfl

lemma bind {x : EStateM ε (σ × List τ) α} {y : EStateM ε σ α} {f : α → EStateM ε (σ × List τ) β}
    {g : α → EStateM ε σ β} (h : Audits x y) (hf : ∀ a, Audits (f a) (g a)) :
    Audits (x >>= f) (y >>= g) := by
  intro s
  have hs := h s
  cases hx : x s with
  | ok a s' =>
    rw [hx] at hs
    rw [bind_ok hx,bind_ok hs.symm]
    exact hf a s'
  | error e s' =>
    rw [hx] at hs
    rw [bind_error hx,bind_error hs.symm]
    rfl

lemma write_bind {x : EStateM ε (σ × List τ) α} {y : EStateM ε σ α} (entries : List τ)
    (h : Audits x y) : Audits (do write entries; x) y := fun s => h (s.1,s.2 ++ entries)

/-- Without the log the loop is the plain loop. -/
theorem run_outcome {L : Loop ε σ} {x : EStateM ε (σ × List τ) α} {y : EStateM ε σ α}
    (h : Audits x y) (s : σ × List τ) (out : List α) :
    outcome (run L x s out) = drain L y s.1 out := by
  induction hn : L.size s.1 using Nat.strongRecOn generalizing s out with
  | ind n ih =>
    have hs := h s
    rw [run,drain]
    cases hd : L.done s.1 with
    | true => rfl
    | false =>
      simp only [Bool.false_eq_true,if_false]
      cases hx : x s with
      | ok a s' =>
        rw [hx] at hs
        rw [← hs]
        by_cases hlt : L.size s'.1 < L.size s.1
        · simp only [plain,if_pos hlt]
          exact ih _ (hn ▸ hlt) s' _ rfl
        · simp only [plain,if_neg hlt]
          rfl
      | error e s' =>
        rw [hx] at hs
        rw [← hs]
        rfl

end Audits

/-- What holds before every step holds of the log at the end, also where a step fails. -/
theorem run_log {L : Loop ε σ} {body : EStateM ε (σ × List τ) α} {Inv : σ × List τ → Prop}
    {Post : List τ → Prop} (hstop : ∀ s, Inv s → Post s.2)
    (hok : ∀ s a s', Inv s → body s = .ok a s' → Inv s')
    (herror : ∀ s e s', Inv s → body s = .error e s' → Post s'.2)
    {s : σ × List τ} (hs : Inv s) (out : List α) : Post (logOf (run L body s out)) := by
  induction hn : L.size s.1 using Nat.strongRecOn generalizing s out with
  | ind n ih =>
    rw [run]
    cases hd : L.done s.1 with
    | true => exact hstop s hs
    | false =>
      simp only [Bool.false_eq_true,if_false]
      cases hb : body s with
      | ok a s' =>
        have hs' := hok s a s' hs hb
        by_cases hlt : L.size s'.1 < L.size s.1
        · simp only [if_pos hlt]
          exact ih _ (hn ▸ hlt) hs' _ rfl
        · simp only [if_neg hlt]
          exact hstop s' hs'
      | error e s' => exact herror s e s' hs hb

end Audit

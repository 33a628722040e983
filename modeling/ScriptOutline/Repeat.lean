/-
Repetition that ends because there is less to read each time.
-/

namespace ScriptOutline
namespace Repeat

variable {ε σ α β : Type}

/-- Run `step` until it gives nothing, and collect what it gives.  `size` says
how much is left to read; a step that leaves no less than it found is the last
one, which makes the recursion end whatever `step` does. -/
def collect (size : σ → Nat) (step : β → EStateM ε σ (Option (α × β))) (b : β) (s : σ) :
    EStateM.Result ε σ (List α) :=
  match step b s with
  | .error e s' => .error e s'
  | .ok none s' => .ok [] s'
  | .ok (some (a, b')) s' =>
    if size s' < size s then
      match collect size step b' s' with
      | .ok as s'' => .ok (a :: as) s''
      | .error e s'' => .error e s''
    else .ok [a] s'
termination_by size s

/-- Repetition in which one step tells the next nothing. -/
def many (size : σ → Nat) (step : EStateM ε σ (Option α)) : EStateM ε σ (List α) :=
  collect size (fun _ => do return (← step).map fun a => (a, ())) ()

end Repeat
end ScriptOutline

/-
Names known by number.
-/

namespace ScriptOutline

/-- Distinct names in the order of their first mention.  The handle of a name
is its place in the list, so handles count up from zero and never change. -/
structure Names where
  known : List String := []
deriving DecidableEq, Repr, Inhabited

namespace Names

def size (n : Names) : Nat := n.known.length

def isEmpty (n : Names) : Bool := n.known.isEmpty

def handle? (n : Names) (name : String) : Option Nat := n.known.idxOf? name

def name? (n : Names) (handle : Nat) : Option String := n.known[handle]?

def mention (n : Names) (name : String) : Names :=
  if n.known.contains name then n else { known := n.known ++ [name] }

/-- The handle of a name, which is made known if need be. -/
def intern (n : Names) (name : String) : Nat × Names :=
  match n.handle? name with
  | some h => (h, n)
  | none => (n.size, n.mention name)

theorem mem_known_mention (n : Names) (name : String) : name ∈ (n.mention name).known := by
  unfold mention
  split <;> simp_all

theorem nodup_mention {n : Names} (h : n.known.Nodup) (name : String) :
    (n.mention name).known.Nodup := by
  unfold mention
  split
  · exact h
  · next hn =>
    refine List.nodup_append.mpr ⟨h, by simp, ?_⟩
    simp only [List.contains_eq_mem, decide_eq_true_eq] at hn
    intro a ha b hb
    simp only [List.mem_singleton] at hb
    subst hb
    exact fun e => hn (e ▸ ha)

end Names

end ScriptOutline

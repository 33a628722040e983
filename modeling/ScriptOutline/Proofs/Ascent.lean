/-
How resolving a path differs from the rule for `..`.

By the rule, `follow`, a `..` takes away the last segment that is kept, unless that is a `..` too.
`Kept.add` asks for the segment that was kept last instead, and that may be a name that has been
taken away since.  Then the last segment kept is a `..`, and it is taken away where the rule keeps
another.  So both keep the same names, and what is kept has two `..` fewer in front each time this
happens, `Trails`.
-/
import ScriptOutline.Proofs.Canonical

namespace ScriptOutline
namespace Path

open List

/-- The rule for one more segment: `.` is dropped, `..` takes away the last segment kept unless
there is none or it is itself `..`, and every other segment is kept. -/
def follow (kept : List (List Char)) (s : List Char) : List (List Char) :=
  if s = here then kept
  else if s = up ∧ kept ≠ [] ∧ kept.getLast? ≠ some up then kept.dropLast
  else kept ++ [s]

def followed (path : String) : String := String.ofList (join ((split path.toList).foldl follow []))

/-- Somewhere `..` takes away the only name behind `..` that are kept, and the next segment, but
for `.`, is `..` again. -/
def DoublesBack (ss : List (List Char)) : Prop :=
  ∃ before stays behind ups name,
    ss = before ++ up :: (replicate stays here ++ up :: behind) ∧
    before.foldl follow [] = replicate (ups + 1) up ++ [name] ∧ name ≠ up

theorem follow_here (kept : List (List Char)) : follow kept here = kept := if_pos rfl

/-- Segments `.` change nothing, by the rule as in resolving. -/
theorem foldl_replicate_here {α : Type} {step : α → List Char → α}
    (hstep : ∀ a, step a here = a) (n : Nat) (a : α) : (replicate n here).foldl step a = a := by
  induction n with
  | zero => rfl
  | succ n ih => rw [replicate_succ, foldl_cons, hstep, ih]

theorem follow_name (kept : List (List Char)) {s : List Char} (hup : s ≠ up) (hhere : s ≠ here) :
    follow kept s = kept ++ [s] := by
  simp [follow, hup, hhere]

theorem follow_back (kept : List (List Char)) {s : List Char} (hup : s ≠ up) :
    follow (kept ++ [s]) up = kept := by
  simp [follow, hup, show up ≠ here by decide]

theorem follow_climb (ups : Nat) : follow (replicate ups up) up = replicate (ups + 1) up := by
  cases ups with
  | zero => rfl
  | succ ups => simp [follow, show up ≠ here by decide, replicate_succ']

/-- What is kept beside what the rule keeps: the same names, behind `..` of which `lost` pairs are
missing. -/
structure Trails (k : Kept) (rule : List (List Char)) (ups lost : Nat) (names : List (List Char)) :
    Prop where
  climbs : k.Climbs ups names
  rule : rule = replicate (ups + 2 * lost) up ++ names

namespace Trails

variable {k : Kept} {rule names : List (List Char)} {ups lost : Nat} {s : List Char}

theorem start : Trails {} [] 0 0 [] := ⟨Kept.climbs_start, rfl⟩

theorem here (h : Trails k rule ups lost names) :
    Trails (k.add here) (follow rule Path.here) ups lost names :=
  ⟨h.climbs.here, by rw [follow_here, h.rule]⟩

theorem name (h : Trails k rule ups lost names) (hup : s ≠ up) (hhere : s ≠ Path.here) :
    Trails (k.add s) (follow rule s) ups lost (names ++ [s]) :=
  ⟨h.climbs.name hup hhere, by rw [follow_name _ hup hhere, h.rule, append_assoc]⟩

theorem back (h : Trails k rule ups lost (names ++ [s])) :
    Trails (k.add up) (follow rule up) ups lost names := by
  have hup := (h.climbs.named s (mem_append_right _ mem_cons_self)).1
  exact ⟨h.climbs.back.1, by rw [h.rule, ← append_assoc, follow_back _ hup]⟩

theorem climb (h : Trails k rule ups lost []) (hkept : ups = 0 ∨ k.last = some up) :
    Trails (k.add up) (follow rule up) (ups + 1) lost [] := by
  refine ⟨(h.climbs.climb hkept).2, ?_⟩
  rw [h.rule, append_nil, append_nil, follow_climb, Nat.add_right_comm]

/-- Here the two part. -/
theorem fall (h : Trails k rule (ups + 1) lost []) (hlast : k.last ≠ some up) :
    Trails (k.add up) (follow rule up) ups (lost + 1) [] := by
  refine ⟨h.climbs.fall hlast, ?_⟩
  rw [h.rule, append_nil, append_nil, follow_climb]
  congr 1
  omega

/-- The next segment is dropped, is kept as a name, takes a name away, is kept as `..`, or takes
a `..` away. -/
theorem add_cases (h : Trails k rule ups lost names) (s : List Char) :
    (s = Path.here ∧ k.add s = k ∧ follow rule s = rule) ∨
    Trails (k.add s) (follow rule s) ups lost (names ++ [s]) ∨
    (s = up ∧ ∃ ms name, names = ms ++ [name] ∧ Trails (k.add s) (follow rule s) ups lost ms) ∨
    (s = up ∧ (k.add s).last = some up ∧ Trails (k.add s) (follow rule s) (ups + 1) lost []) ∨
    (s = up ∧ names = [] ∧ k.last ≠ some up ∧ ∃ fewer, ups = fewer + 1 ∧
      Trails (k.add s) (follow rule s) fewer (lost + 1) []) := by
  by_cases hhere : s = Path.here
  · subst hhere
    exact .inl ⟨rfl, k.add_here, follow_here rule⟩
  by_cases hup : s = up
  · subst hup
    refine .inr (.inr ?_)
    rcases eq_nil_or_concat names with rfl | ⟨ms, name, rfl⟩
    · refine .inr ?_
      by_cases hkept : ups = 0 ∨ k.last = some up
      · exact .inl ⟨rfl, by rw [(h.climbs.climb hkept).1], h.climb hkept⟩
      · obtain ⟨hups, hlast⟩ := not_or.1 hkept
        obtain ⟨fewer, rfl⟩ := Nat.exists_eq_succ_of_ne_zero hups
        exact .inr ⟨rfl, rfl, hlast, fewer, rfl, h.fall hlast⟩
    · rw [concat_eq_append] at h ⊢
      exact .inl ⟨rfl, ms, name, rfl, h.back⟩
  · exact .inr (.inl (h.name hup hhere))

/-- What is missing stays missing. -/
theorem foldl (h : Trails k rule ups lost names) (ss : List (List Char)) :
    ∃ ups' lost' names', lost ≤ lost' ∧
      Trails (ss.foldl Kept.add k) (ss.foldl follow rule) ups' lost' names' := by
  induction ss generalizing k rule ups lost names with
  | nil => exact ⟨ups, lost, names, Nat.le_refl _, h⟩
  | cons s ss ih =>
    rcases h.add_cases s with ⟨-, hk, hrule⟩ | h | ⟨-, ms, -, -, h⟩ | ⟨-, -, h⟩ |
      ⟨-, -, -, fewer, -, h⟩
    · rw [foldl_cons, foldl_cons, hk, hrule]
      exact ih h
    · exact ih h
    · exact ih h
    · exact ih h
    · obtain ⟨ups', lost', names', hle, h⟩ := ih h
      exact ⟨ups', lost', names', Nat.le_of_succ_le hle, h⟩

theorem of_segments (ss : List (List Char)) :
    ∃ ups lost names, Trails (ss.foldl Kept.add {}) (ss.foldl follow []) ups lost names := by
  obtain ⟨ups, lost, names, -, h⟩ := start.foldl ss
  exact ⟨ups, lost, names, h⟩

end Trails

theorem replicate_up_append_inj {m n : Nat} {ms ns : List (List Char)} (hms : up ∉ ms)
    (hns : up ∉ ns) (h : replicate m up ++ ms = replicate n up ++ ns) : m = n ∧ ms = ns := by
  have hcount := congrArg (count up) h
  simp only [count_append, count_replicate_self, count_eq_zero_of_not_mem hms,
    count_eq_zero_of_not_mem hns, Nat.add_zero] at hcount
  subst hcount
  exact ⟨rfl, append_cancel_left h⟩

namespace Trails

variable {k : Kept} {rule names names' : List (List Char)} {ups lost ups' lost' : Nat}

theorem up_notMem (h : Trails k rule ups lost names) : up ∉ names :=
  fun hup => (h.climbs.named up hup).1 rfl

theorem unique (h : Trails k rule ups lost names) (h' : Trails k rule ups' lost' names') :
    ups = ups' ∧ lost = lost' ∧ names = names' := by
  obtain ⟨hups, hnames⟩ := replicate_up_append_inj h.up_notMem h'.up_notMem
    (h.climbs.segments.symm.trans h'.climbs.segments)
  obtain ⟨hrule, -⟩ := replicate_up_append_inj h.up_notMem h'.up_notMem
    (h.rule.symm.trans h'.rule)
  exact ⟨hups, by omega, hnames⟩

end Trails

/-! ## Where the two part -/

theorem DoublesBack.append {ss : List (List Char)} (h : DoublesBack ss) (ts : List (List Char)) :
    DoublesBack (ss ++ ts) := by
  obtain ⟨before, stays, behind, ups, name, rfl, hrule, hname⟩ := h
  exact ⟨before, stays, behind ++ ts, ups, name, by simp, hrule, hname⟩

section

variable {ss names : List (List Char)} {ups lost : Nat}

/-- If only `..` are kept, but a name was kept last, the last segment but for `.` has taken that
name away. -/
theorem exists_back (h : Trails (ss.foldl Kept.add {}) (ss.foldl follow []) (ups + 1) 0 [])
    (hlast : (ss.foldl Kept.add {}).last ≠ some up) :
    ∃ before stays name, ss = before ++ up :: replicate stays here ∧
      before.foldl follow [] = replicate (ups + 1) up ++ [name] ∧ name ≠ up := by
  induction ss using reverseRecOn with
  | nil =>
    have hnone := h.climbs.segments
    simp [replicate_succ] at hnone
  | append_singleton ss s ih =>
    obtain ⟨ups', lost', names', hss⟩ := Trails.of_segments ss
    rw [foldl_append, foldl_append, foldl_cons, foldl_cons, foldl_nil, foldl_nil] at h
    rw [foldl_append, foldl_cons, foldl_nil] at hlast
    rcases hss.add_cases s with ⟨rfl, hk, hrule⟩ | hname | ⟨rfl, ms, name, rfl, hback⟩ |
      ⟨-, hup, -⟩ | ⟨-, -, -, fewer, -, hfall⟩
    · rw [hk, hrule] at h
      rw [hk] at hlast
      obtain ⟨before, stays, name, rfl, hbefore⟩ := ih h hlast
      exact ⟨before, stays + 1, name, by simp [replicate_succ'], hbefore⟩
    · simpa using (hname.unique h).2.2
    · obtain ⟨rfl, rfl, rfl⟩ := hback.unique h
      exact ⟨ss, 0, name, rfl, hss.rule, (hss.climbs.named name (by simp)).1⟩
    · exact absurd hup hlast
    · simpa using (hfall.unique h).2.1

/-- Where `..` are missing, a path has doubled back. -/
theorem doublesBack_of_lost
    (h : Trails (ss.foldl Kept.add {}) (ss.foldl follow []) ups (lost + 1) names) :
    DoublesBack ss := by
  induction ss using reverseRecOn generalizing ups lost names with
  | nil => simpa using (h.unique .start).2.1
  | append_singleton ss s ih =>
    obtain ⟨ups', lost', names', hss⟩ := Trails.of_segments ss
    rw [foldl_append, foldl_append, foldl_cons, foldl_cons, foldl_nil, foldl_nil] at h
    rcases hss.add_cases s with ⟨-, hk, hrule⟩ | hname | ⟨-, ms, -, -, hback⟩ |
      ⟨-, -, hclimb⟩ | ⟨rfl, rfl, hlast, fewer, rfl, hfall⟩
    · rw [hk, hrule] at h
      exact (ih h).append [s]
    · obtain ⟨-, rfl, -⟩ := hname.unique h
      exact (ih hss).append [s]
    · obtain ⟨-, rfl, -⟩ := hback.unique h
      exact (ih hss).append [s]
    · obtain ⟨-, rfl, -⟩ := hclimb.unique h
      exact (ih hss).append [s]
    · cases lost' with
      | succ lost' => exact (ih hss).append [up]
      | zero =>
        obtain ⟨before, stays, name, rfl, hrule, hname⟩ := exists_back hss hlast
        exact ⟨before, stays, [], fewer, name, by simp, hrule, hname⟩

/-- A path that has doubled back misses `..`. -/
theorem lost_ne_zero_of_doublesBack (hback : DoublesBack ss)
    (h : Trails (ss.foldl Kept.add {}) (ss.foldl follow []) ups lost names) : lost ≠ 0 := by
  obtain ⟨before, stays, behind, n, name, rfl, hrule, hname⟩ := hback
  -- once some are missing, some are missing at the end
  have hmissing {k : Kept} {rule ms : List (List Char)} {m l : Nat} (ts : List (List Char))
      (hl : l ≠ 0) (hmid : Trails k rule m l ms)
      (hend : Trails (ts.foldl Kept.add k) (ts.foldl follow rule) ups lost names) : lost ≠ 0 := by
    obtain ⟨_, lost', _, hle, hts⟩ := hmid.foldl ts
    obtain ⟨-, rfl, -⟩ := hts.unique hend
    omega
  obtain ⟨ups₀, lost₀, names₀, hbefore⟩ := Trails.of_segments before
  rw [foldl_append, foldl_append] at h
  by_cases hlost₀ : lost₀ = 0
  · subst hlost₀
    obtain ⟨rfl, rfl⟩ := replicate_up_append_inj hbefore.up_notMem (by simpa using hname.symm)
      (hbefore.rule.symm.trans hrule)
    have hclimbs : (before.foldl Kept.add {}).Climbs (n + 1) ([] ++ [name]) := hbefore.climbs
    have hstep : Trails ((before.foldl Kept.add {}).add up) (follow (before.foldl follow []) up)
        (n + 1) 0 [] := Trails.back (s := name) hbefore
    rw [foldl_cons, foldl_cons, foldl_append, foldl_append, foldl_replicate_here Kept.add_here,
      foldl_replicate_here follow_here, foldl_cons, foldl_cons] at h
    exact hmissing behind (Nat.succ_ne_zero 0) (hstep.fall hclimbs.back.2) h
  · exact hmissing _ hlost₀ hbefore h

end

theorem length_join_up_cons (ss : List (List Char)) :
    (join ss).length < (join (up :: ss)).length := by
  cases ss with
  | nil => simp [join, up]
  | cons s ss =>
    simp only [join, length_append, length_cons]
    omega

theorem join_replicate_up_append_eq {n : Nat} {ss : List (List Char)} :
    join (replicate n up ++ ss) = join ss ↔ n = 0 := by
  refine ⟨fun h => ?_, fun h => by simp [h]⟩
  have hlength : n + (join ss).length ≤ (join (replicate n up ++ ss)).length := by
    clear h
    induction n with
    | zero => simp
    | succ n ih =>
      have hlt := length_join_up_cons (replicate n up ++ ss)
      rw [replicate_succ, cons_append]
      omega
  rw [h] at hlength
  omega

/-- The rule keeps what resolving a path keeps, and in front of it an even number of `..` more.
So the two give the same path exactly where the path nowhere doubles back. -/
theorem resolve_eq_followed_iff (path : String) :
    (∃ lost, (split path.toList).foldl follow [] =
      replicate (2 * lost) up ++ keptSegments path) ∧
    (resolve path = followed path ↔ ¬ DoublesBack (split path.toList)) := by
  obtain ⟨ups, lost, names, h⟩ := Trails.of_segments (split path.toList)
  have hrule : (split path.toList).foldl follow [] =
      replicate (2 * lost) up ++ keptSegments path := by
    rw [keptSegments, h.rule, h.climbs.segments, ← append_assoc, replicate_append_replicate,
      Nat.add_comm]
  have hsame : resolve path = followed path ↔ lost = 0 := by
    rw [eq_comm, ← String.toList_inj, toList_resolve, followed, String.toList_ofList, hrule,
      join_replicate_up_append_eq]
    omega
  refine ⟨⟨lost, hrule⟩, hsame.trans ⟨?_, fun hstraight => ?_⟩⟩
  · exact fun hlost hback => lost_ne_zero_of_doublesBack hback h hlost
  · cases lost with
    | zero => rfl
    | succ lost => exact absurd (doublesBack_of_lost h) hstraight

-- the rule keeps both `..` of the way up
example : resolve "../a/../.." = "" := by decide +kernel

end Path
end ScriptOutline

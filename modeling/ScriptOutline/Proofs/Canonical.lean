/-
Paths without `.` and `..`.

Whatever the segments of a path, those that are kept are some `..` followed by segments that are
none, `Kept.Climbs`.  So the canonical form of a path is a normal form: it is tidy, and nothing
in it is dropped or taken away when it is made canonical again.

`follow` is the rule for `..` by the segments that are kept.  `Kept.add` goes by the segment that
was kept last, even where it has been taken away since, and then takes a `..` away where the rule
keeps another.  From there on both go the same way, so of the `..` in front an even number is
missing in the end.
-/
import ScriptOutline.Project.ModuleId
import Mathlib.Data.List.Induction

namespace ScriptOutline
namespace Path

open List

theorem slash_notMem_split (cs : List Char) : ∀ s ∈ split cs, '/' ∉ s := by
  induction cs with
  | nil => simp [split]
  | cons c cs ih =>
    unfold split
    split
    · simpa using ih
    · next hc =>
      split
      · next h => exact absurd h (split_ne_nil cs)
      · next s ss h =>
        rw [h] at ih
        have hc : c ≠ '/' := by simpa using hc
        intro t ht
        rcases mem_cons.1 ht with rfl | ht
        · simp [hc.symm, ih s]
        · exact ih t (mem_cons_of_mem _ ht)

theorem split_of_notMem {s : List Char} (h : '/' ∉ s) : split s = [s] := by
  induction s with
  | nil => rfl
  | cons c s ih =>
    obtain ⟨hc, hs⟩ : '/' ≠ c ∧ '/' ∉ s := by simpa using h
    simp [split, ih hs, hc.symm]

theorem split_append (cs ds : List Char) : split (cs ++ '/' :: ds) = split cs ++ split ds := by
  induction cs with
  | nil => rfl
  | cons c cs ih =>
    by_cases hc : c = '/'
    · subst hc
      simp only [cons_append, split, ih, beq_self_eq_true, if_true]
    · have hslash : ¬ (c == '/') = true := by simpa using hc
      rw [cons_append, split, if_neg hslash, ih, split, if_neg hslash]
      cases hsplit : split cs with
      | nil => exact absurd hsplit (split_ne_nil cs)
      | cons s ss => rfl

theorem split_append_slash {s : List Char} (h : '/' ∉ s) (cs : List Char) :
    split (s ++ '/' :: cs) = s :: split cs := by
  rw [split_append, split_of_notMem h, singleton_append]

theorem split_join {ss : List (List Char)} (hne : ss ≠ []) (h : ∀ s ∈ ss, '/' ∉ s) :
    split (join ss) = ss := by
  induction ss with
  | nil => exact absurd rfl hne
  | cons s ss ih =>
    obtain ⟨hs, hss⟩ := forall_mem_cons.1 h
    cases ss with
    | nil => exact split_of_notMem hs
    | cons t ss =>
      rw [join, split_append_slash hs, ih (cons_ne_nil t ss) hss]

theorem mem_of_mem_split {c : Char} {s cs : List Char} (hs : s ∈ split cs) (hc : c ∈ s) :
    c ∈ cs := by
  induction cs generalizing s with
  | nil => simp_all [split]
  | cons b cs ih =>
    unfold split at hs
    split at hs
    · rcases mem_cons.1 hs with rfl | hs
      · cases hc
      · exact mem_cons_of_mem _ (ih hs hc)
    · split at hs
      · next h => exact absurd h (split_ne_nil cs)
      · next t ts h =>
        rw [h] at ih
        rcases mem_cons.1 hs with rfl | hs
        · rcases mem_cons.1 hc with rfl | hc
          · exact mem_cons_self
          · exact mem_cons_of_mem _ (ih mem_cons_self hc)
        · exact mem_cons_of_mem _ (ih (mem_cons_of_mem _ hs) hc)

theorem backslash_notMem_tidy (slashed : Bool) (cs : List Char) : '\\' ∉ tidy slashed cs := by
  induction cs generalizing slashed with
  | nil => simp [tidy]
  | cons c cs ih =>
    have hc : '\\' ≠ if c == '\\' then '/' else c := by
      split
      · decide
      · next h => exact Ne.symm (by simpa using h)
    simp only [tidy]
    generalize (if (c == '\\') = true then '/' else c) = d at hc ⊢
    split
    · exact ih true
    · exact not_mem_cons_of_ne_of_not_mem hc (ih _)

/-- No slash follows another, nor the one before. -/
theorem tidy_separated (slashed : Bool) (cs : List Char) :
    ¬ ['/', '/'] <:+: tidy slashed cs ∧ (slashed = true → (tidy slashed cs).head? ≠ some '/') := by
  induction cs generalizing slashed with
  | nil => simp [tidy]
  | cons c cs ih =>
    simp only [tidy]
    generalize (if (c == '\\') = true then '/' else c) = d
    split
    · next h => exact ⟨(ih true).1, fun _ => (ih true).2 rfl⟩
    · next h =>
      obtain ⟨hrest, hhead⟩ := ih (d == '/')
      refine ⟨?_, ?_⟩
      · rw [infix_cons_iff, cons_prefix_cons, not_or]
        refine ⟨?_, hrest⟩
        rintro ⟨rfl, hslash⟩
        refine hhead rfl ?_
        obtain ⟨rest, hrest⟩ := hslash
        rw [← hrest]
        rfl
      · rintro rfl
        simpa using h

/-- Between its first and its last segment a tidy path has none that is empty. -/
theorem inner_ne_nil_split_tidy (cs : List Char) :
    (∀ s ∈ (split (tidy false cs)).tail.dropLast, s ≠ []) ∧
      ∀ s ∈ (split (tidy true cs)).dropLast, s ≠ [] := by
  induction cs with
  | nil => simp [tidy, split]
  | cons c cs ih =>
    simp only [tidy]
    generalize (if (c == '\\') = true then '/' else c) = d
    by_cases hd : d = '/'
    · subst hd
      refine ⟨?_, by simpa using ih.2⟩
      simpa [split] using ih.2
    · obtain ⟨s, ss, hsplit⟩ := exists_cons_of_ne_nil (split_ne_nil (tidy false cs))
      have hinner := ih.1
      rw [hsplit] at hinner
      simp only [Bool.false_and, Bool.false_eq_true, if_false, split, hsplit,
        beq_eq_false_iff_ne.2 hd, tail_cons] at hinner ⊢
      refine ⟨hinner, ?_⟩
      cases ss with
      | nil => simp
      | cons t ss =>
        rw [dropLast_cons_cons, forall_mem_cons]
        exact ⟨cons_ne_nil d s, hinner⟩

/-- A segment without slashes of either kind. -/
def IsPlain (s : List Char) : Prop := '/' ∉ s ∧ '\\' ∉ s

theorem tidy_plain {s : List Char} (hs : IsPlain s) (slashed : Bool) (cs : List Char) :
    tidy slashed (s ++ cs) = s ++ tidy (slashed && s.isEmpty) cs := by
  induction s generalizing slashed with
  | nil => simp
  | cons c s ih =>
    obtain ⟨⟨hslash, hs⟩, hback, hs'⟩ : ('/' ≠ c ∧ '/' ∉ s) ∧ '\\' ≠ c ∧ '\\' ∉ s := by
      simpa [IsPlain] using hs
    simp [tidy, beq_eq_false_iff_ne.2 hslash.symm, hback.symm, ih ⟨hs, hs'⟩]

/-- A path of plain segments is tidy if none but its first and its last is empty.  Behind a
slash the first is not empty either, unless it is the last. -/
theorem tidy_join {ss : List (List Char)} (hplain : ∀ s ∈ ss, IsPlain s) :
    ((∀ s ∈ ss.tail.dropLast, s ≠ []) → tidy false (join ss) = join ss) ∧
      ((∀ s ∈ ss.dropLast, s ≠ []) → tidy true (join ss) = join ss) := by
  induction ss with
  | nil => simp [join, tidy]
  | cons s ss ih =>
    obtain ⟨hs, hss⟩ := forall_mem_cons.1 hplain
    obtain ⟨-, hslashed⟩ := ih hss
    cases ss with
    | nil =>
      have hself (slashed : Bool) : tidy slashed s = s := by
        simpa [tidy] using tidy_plain hs slashed []
      exact ⟨fun _ => hself false, fun _ => hself true⟩
    | cons t ss =>
      have hslash : tidy false ('/' :: join (t :: ss)) = '/' :: tidy true (join (t :: ss)) := rfl
      refine ⟨fun h => ?_, fun h => ?_⟩
      · rw [join, tidy_plain hs, Bool.false_and, hslash, hslashed h]
      · obtain ⟨hne, h⟩ := forall_mem_cons.1 (dropLast_cons_cons ▸ h)
        rw [join, tidy_plain hs, isEmpty_eq_false_iff.2 hne, Bool.and_false, hslash, hslashed h]

theorem toList_normalizeSlashes (path : String) :
    (normalizeSlashes path).toList = tidy false path.toList := String.toList_ofList

namespace Kept

/-- Some `..` are kept and behind them names, of which the last is what was kept last. -/
structure Climbs (k : Kept) (ups : Nat) (names : List (List Char)) : Prop where
  segments : k.segments = replicate ups up ++ names
  named : ∀ s ∈ names, s ≠ up ∧ s ≠ here
  /-- If the segment kept last is `..`, there are no names. -/
  last : k.last = some up → names = [] ∧ 0 < ups

variable {k : Kept} {ups : Nat} {names : List (List Char)} {s : List Char}

theorem climbs_start : ({} : Kept).Climbs 0 [] := ⟨rfl, by simp, nofun⟩

theorem add_here (k : Kept) : k.add here = k := by simp [add, Path.here, up]

theorem Climbs.here (h : k.Climbs ups names) : (k.add here).Climbs ups names := by
  rwa [add_here]

theorem Climbs.name (h : k.Climbs ups names) (hup : s ≠ up) (hhere : s ≠ Path.here) :
    (k.add s).Climbs ups (names ++ [s]) := by
  have hadd : k.add s = { segments := k.segments ++ [s], last := some s } := by
    simp [add, hup, hhere]
  rw [hadd]
  refine ⟨by simp [h.segments], ?_, by simpa using hup⟩
  simp only [mem_append, mem_singleton]
  rintro t (ht | rfl)
  · exact h.named t ht
  · exact ⟨hup, hhere⟩

/-- A name is taken away. -/
theorem Climbs.back (h : k.Climbs ups (names ++ [s])) :
    (k.add up).Climbs ups names ∧ (k.add up).last ≠ some up := by
  have hlast : k.last ≠ some up := fun hlast => by simpa using (h.last hlast).1
  have hadd : k.add up = { k with segments := k.segments.dropLast } := by
    simp [add, h.segments, hlast]
  rw [hadd]
  refine ⟨⟨?_, fun t ht => h.named t (mem_append_left _ ht), fun hup => absurd hup hlast⟩, hlast⟩
  rw [h.segments, ← append_assoc, dropLast_concat]

/-- There is nothing to take away. -/
theorem Climbs.climb (h : k.Climbs ups []) (hkept : ups = 0 ∨ k.last = some up) :
    k.add up = { segments := k.segments ++ [up], last := some up } ∧
      (k.add up).Climbs (ups + 1) [] := by
  have hadd : k.add up = { segments := k.segments ++ [up], last := some up } := by
    rcases hkept with rfl | hlast
    · simp [add, h.segments, Path.here, up]
    · simp [add, hlast, Path.here, up]
  refine ⟨hadd, ?_⟩
  rw [hadd]
  exact ⟨by simp [h.segments, replicate_succ'], by simp, fun _ => ⟨rfl, Nat.succ_pos ups⟩⟩

/-- A `..` is taken away, since a name that stood behind it was kept last. -/
theorem Climbs.fall (h : k.Climbs (ups + 1) []) (hlast : k.last ≠ some up) :
    (k.add up).Climbs ups [] := by
  have hadd : k.add up = { k with segments := k.segments.dropLast } := by
    simp [add, h.segments, hlast, replicate_succ']
  rw [hadd]
  exact ⟨by simp [h.segments, replicate_succ'], by simp, fun hup => absurd hup hlast⟩

/-- Whatever the segments, what is kept climbs and then names. -/
theorem exists_climbs (ss : List (List Char)) :
    ∃ ups names, (ss.foldl add {}).Climbs ups names := by
  suffices hfrom : ∀ k : Kept, (∃ ups names, k.Climbs ups names) →
      ∃ ups names, (ss.foldl add k).Climbs ups names from hfrom {} ⟨0, [], climbs_start⟩
  induction ss with
  | nil => exact fun _ h => h
  | cons s ss ih =>
    rintro k ⟨ups, names, h⟩
    refine ih _ ?_
    by_cases hhere : s = Path.here
    · exact ⟨ups, names, hhere ▸ h.here⟩
    by_cases hup : s = up
    · subst hup
      rcases eq_nil_or_concat names with rfl | ⟨names, t, rfl⟩
      · cases ups with
        | zero => exact ⟨1, [], (h.climb (.inl rfl)).2⟩
        | succ ups =>
          by_cases hlast : k.last = some up
          · exact ⟨ups + 2, [], (h.climb (.inr hlast)).2⟩
          · exact ⟨ups, [], h.fall hlast⟩
      · exact ⟨ups, names, (concat_eq_append ▸ h).back.1⟩
    · exact ⟨ups, names ++ [s], h.name hup hhere⟩

theorem add_cases (k : Kept) (s : List Char) :
    (k.add s).segments = k.segments ∨ (k.add s).segments = k.segments.dropLast ∨
      (k.add s).segments = k.segments ++ [s] := by
  unfold add
  split
  · exact .inr (.inl rfl)
  · split
    · exact .inl rfl
    · exact .inr (.inr rfl)

/-- Nothing is kept that is not there. -/
theorem mem_foldl_add {ss : List (List Char)} {t : List Char}
    (h : t ∈ (ss.foldl add k).segments) : t ∈ k.segments ∨ t ∈ ss := by
  induction ss generalizing k with
  | nil => exact .inl h
  | cons s ss ih =>
    rcases ih h with h | h
    · rcases k.add_cases s with hadd | hadd | hadd <;> rw [hadd] at h
      · exact .inl h
      · exact .inl (dropLast_subset _ h)
      · refine (mem_append.1 h).imp_right fun h => ?_
        exact mem_singleton.1 h ▸ mem_cons_self
    · exact .inr (mem_cons_of_mem s h)

theorem mem_tail_add {t : List Char} (h : t ∈ (k.add s).segments.tail) :
    t ∈ k.segments.tail ∨ t = s := by
  rcases k.add_cases s with hadd | hadd | hadd <;> rw [hadd] at h
  · exact .inl h
  · exact .inl (dropLast_subset _ (tail_dropLast ▸ h))
  · cases hk : k.segments with
    | nil =>
      rw [hk] at h
      cases h
    | cons u us =>
      rw [hk] at h
      simpa using h

theorem tail_foldl_add_ne_nil {ss : List (List Char)} (hss : ∀ s ∈ ss, s ≠ [])
    (hk : ∀ t ∈ k.segments.tail, t ≠ []) : ∀ t ∈ (ss.foldl add k).segments.tail, t ≠ [] := by
  induction ss generalizing k with
  | nil => exact hk
  | cons s ss ih =>
    obtain ⟨hs, hss⟩ := forall_mem_cons.1 hss
    refine ih hss fun t ht => ?_
    rcases mem_tail_add ht with ht | rfl
    · exact hk t ht
    · exact hs

/-- If only the first and the last of all segments may be empty, so may only the first and the
last that are kept. -/
theorem inner_foldl_add_ne_nil {ss : List (List Char)} (h : ∀ s ∈ ss.tail.dropLast, s ≠ []) :
    ∀ t ∈ (ss.foldl add {}).segments.tail.dropLast, t ≠ [] := by
  cases ss with
  | nil => simp
  | cons s ss =>
    have hfirst : ((({} : Kept).add s).segments).tail = [] := by
      rcases ({} : Kept).add_cases s with hadd | hadd | hadd <;> rw [hadd] <;> rfl
    rcases eq_nil_or_concat ss with rfl | ⟨ss, t, rfl⟩
    · simp [hfirst]
    · -- the last segment can only be kept behind all others
      simp only [tail_cons, concat_eq_append, dropLast_concat] at h
      have htail := tail_foldl_add_ne_nil (k := ({} : Kept).add s) h (by simp [hfirst])
      rw [concat_eq_append, foldl_cons, foldl_append, foldl_cons, foldl_nil]
      generalize ss.foldl add (({} : Kept).add s) = k at htail ⊢
      intro u hu
      rcases k.add_cases t with hadd | hadd | hadd <;> rw [hadd] at hu
      · exact htail u (dropLast_subset _ hu)
      · exact htail u (dropLast_subset _ (tail_dropLast ▸ dropLast_subset _ hu))
      · cases hk : k.segments with
        | nil =>
          rw [hk] at hu
          cases hu
        | cons v vs =>
          rw [hk] at htail hu
          exact htail u (by simpa using hu)

/-- What climbs and then names is kept as it is. -/
theorem climbs_foldl_add (ups : Nat) (hnamed : ∀ s ∈ names, s ≠ up ∧ s ≠ Path.here) :
    ((replicate ups up ++ names).foldl add {}).Climbs ups names := by
  have hups : ((replicate ups up).foldl add {}).Climbs ups [] ∧
      (ups = 0 ∨ ((replicate ups up).foldl add {}).last = some up) := by
    induction ups with
    | zero => exact ⟨climbs_start, .inl rfl⟩
    | succ ups ih =>
      obtain ⟨hclimbs, hkept⟩ := ih
      rw [replicate_succ', foldl_append, foldl_cons, foldl_nil]
      obtain ⟨hadd, hclimbs⟩ := hclimbs.climb hkept
      exact ⟨hclimbs, .inr (by rw [hadd])⟩
  induction names using reverseRecOn with
  | nil =>
    rw [append_nil]
    exact hups.1
  | append_singleton names s ih =>
    have hs := hnamed s (mem_append_right _ mem_cons_self)
    have hclimbs := ih fun t ht => hnamed t (mem_append_left _ ht)
    rw [← append_assoc, foldl_append, foldl_cons, foldl_nil]
    exact hclimbs.name hs.1 hs.2

end Kept

/-! ## The canonical form -/

def keptSegments (path : String) : List (List Char) :=
  ((split path.toList).foldl Kept.add {}).segments

theorem toList_resolve (path : String) : (resolve path).toList = join (keptSegments path) :=
  String.toList_ofList

theorem slash_notMem_keptSegments (path : String) : ∀ s ∈ keptSegments path, '/' ∉ s := by
  intro s hs
  rcases Kept.mem_foldl_add hs with hs | hs
  · cases hs
  · exact slash_notMem_split _ s hs

theorem plain_keptSegments (path : String) :
    ∀ s ∈ keptSegments (normalizeSlashes path), IsPlain s := by
  intro s hs
  refine ⟨slash_notMem_keptSegments _ s hs, fun hback => ?_⟩
  rcases Kept.mem_foldl_add hs with hs | hs
  · cases hs
  · rw [toList_normalizeSlashes] at hs
    exact backslash_notMem_tidy _ _ (mem_of_mem_split hs hback)

/-- A path of which nothing is kept is the empty one, which has an empty segment. -/
theorem split_resolve (path : String) :
    split (resolve path).toList =
      if keptSegments path = [] then [[]] else keptSegments path := by
  rw [toList_resolve]
  split
  · next h => rw [h]; rfl
  · next h => exact split_join h (slash_notMem_keptSegments path)

/-- The segments of a resolved path climb, and then there are names. -/
theorem exists_split_resolve (path : String) :
    ∃ ups names, split (resolve path).toList = replicate ups up ++ names ∧
      ∀ s ∈ names, s ≠ up ∧ s ≠ here := by
  rw [split_resolve]
  split
  · exact ⟨0, [[]], rfl, by simp [up, here]⟩
  · obtain ⟨ups, names, hclimbs⟩ := Kept.exists_climbs (split path.toList)
    exact ⟨ups, names, hclimbs.segments, hclimbs.named⟩

theorem resolve_resolve (path : String) : resolve (resolve path) = resolve path := by
  obtain ⟨ups, names, hsplit, hnamed⟩ := exists_split_resolve path
  have hkept : keptSegments (resolve path) = split (resolve path).toList := by
    rw [keptSegments, hsplit]
    exact (Kept.climbs_foldl_add ups hnamed).segments
  rw [← String.toList_inj, toList_resolve, hkept, join_split]

theorem normalizeSlashes_canonical (path : String) :
    normalizeSlashes (canonical path) = canonical path := by
  have hinner := (inner_ne_nil_split_tidy path.toList).1
  rw [← toList_normalizeSlashes] at hinner
  have htidy := (tidy_join (plain_keptSegments path)).1 (Kept.inner_foldl_add_ne_nil hinner)
  rw [← String.toList_inj, toList_normalizeSlashes, canonical, toList_resolve]
  exact htidy

theorem canonical_canonical (path : String) : canonical (canonical path) = canonical path := by
  rw [canonical, normalizeSlashes_canonical, canonical, resolve_resolve]

/-- The canonical form of a path is a normal form.  It has no backslash, no slash behind another
and no segment `.`, and its segments `..` stand in front of all others.  It is its own canonical
form, so a file has the same module under its canonical path. -/
theorem canonical_normal (path : String) :
    '\\' ∉ (canonical path).toList ∧
    ¬ ['/', '/'] <:+: (canonical path).toList ∧
    "." ∉ segments (canonical path) ∧
    (∃ ups names, segments (canonical path) = replicate ups ".." ++ names ∧ ".." ∉ names) ∧
    canonical (canonical path) = canonical path ∧
    ∀ settings, ModuleId.ofPath? settings (canonical path) = ModuleId.ofPath? settings path := by
  have htidy : tidy false (canonical path).toList = (canonical path).toList := by
    rw [← toList_normalizeSlashes, normalizeSlashes_canonical]
  obtain ⟨ups, names, hsplit, hnamed⟩ := exists_split_resolve (normalizeSlashes path)
  have hsegments : segments (canonical path) =
      replicate ups ".." ++ names.map String.ofList := by
    rw [segments, canonical, hsplit, map_append, map_replicate]
    rfl
  have hups : ∀ s, s ∈ names → String.ofList s ≠ ".." := fun s hs h => by
    refine (hnamed s hs).1 ?_
    simpa [up] using congrArg String.toList h
  have hheres : ∀ s, s ∈ names → String.ofList s ≠ "." := fun s hs h => by
    refine (hnamed s hs).2 ?_
    simpa [here] using congrArg String.toList h
  refine ⟨?_, ?_, ?_, ⟨ups, _, hsegments, ?_⟩, canonical_canonical path, fun settings => ?_⟩
  · rw [← htidy]
    exact backslash_notMem_tidy false _
  · rw [← htidy]
    exact (tidy_separated false _).1
  · rw [hsegments, mem_append, mem_replicate, mem_map]
    rintro (⟨-, h⟩ | ⟨s, hs, h⟩)
    · exact absurd h (by decide)
    · exact hheres s hs h
  · rw [mem_map]
    rintro ⟨s, hs, h⟩
    exact hups s hs h
  · rw [ModuleId.ofPath?, ModuleId.ofPath?, canonical_canonical]

end Path
end ScriptOutline

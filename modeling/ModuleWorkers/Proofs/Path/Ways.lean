import Mathlib.Data.List.Induction
import ModuleWorkers.Proofs.Path.Address
import ModuleWorkers.Proofs.Path.Relative

/-!
# Where ways lead

The way from a directory without `..` to an absolute path leads there, whatever is written in the
path (`Path.IsPlain.exists_way`). From another directory the same way leads to the same place if and
only if the two agree as many steps up as the way climbs (`Path.normal_join_eq_iff`).
-/

namespace ModuleWorkers

/-! ## Pieces that cancel -/

/-- As many `..` as there are names take the names along. -/
theorem collapse_append_up (ss ts : List (List Char)) {ns : List (List Char)}
    (h : ∀ s ∈ ns, IsName s) :
    collapse (ss ++ (ns ++ (List.replicate ns.length ['.', '.'] ++ ts))) = collapse (ss ++ ts) := by
  have hpair : ∀ ss ts : List (List Char), ∀ s, IsName s →
      collapse (ss ++ s :: ['.', '.'] :: ts) = collapse (ss ++ ts) := by
    intro ss ts s hs
    rw [collapse, collapse, List.foldl_append, List.foldl_append, List.foldl_cons,
      collapseStep_of_isName hs]
    rfl
  induction ns using List.reverseRecOn with
  | nil => rfl
  | append_singleton ns s ih =>
    -- the last name meets the first `..`
    have hlast := hpair (ss ++ ns) (List.replicate ns.length ['.', '.'] ++ ts) s (h s (by simp))
    rw [List.append_assoc] at hlast
    rw [List.length_append, List.length_singleton, List.replicate_succ, List.append_assoc ns]
    refine hlast.trans ?_
    rw [List.append_assoc]
    exact ih fun t ht => h t (List.mem_append_left _ ht)

/-- Names do not climb. -/
theorem overshoot_of_isName {ns : List (List Char)} (h : ∀ s ∈ ns, IsName s) :
    overshoot ns = 0 := by
  have hfrom : ∀ depth, overshootFrom depth ns = 0 := by
    induction ns with
    | nil => exact fun _ => rfl
    | cons s ns ih =>
      intro depth
      obtain ⟨hs, hns⟩ := List.forall_mem_cons.1 h
      rw [overshootFrom, if_neg (not_or.2 ⟨hs.1, hs.2.1⟩), if_neg hs.2.2]
      exact ih hns (depth + 1)
  exact hfrom 0

namespace Path

variable {p q dir : Path} {as bs cs : List Component}

/-! ## Normal forms -/

theorem names_ofNames (absolute : Bool) {ns : List (List Char)} (h : ∀ s ∈ ns, IsStep s) :
    (ofNames absolute ns).names = ns := by
  cases absolute with
  | true => exact names_rooted h
  | false =>
    have hjoined := collapse_append_segments_joined [] fun s hs => (h s hs).2
    rw [names, chars_ofNames, if_neg Bool.false_ne_true]
    exact hjoined.trans (collapse_of_isName fun s hs => (h s hs).1)

theorem isAbsolute_normal (p : Path) : p.normal.isAbsolute = p.isAbsolute := by
  rw [normal_eq, isAbsolute_ofNames _ fun s => isStep_of_mem_names]

theorem names_normal (p : Path) : p.normal.names = p.names := by
  rw [normal_eq, names_ofNames _ fun s => isStep_of_mem_names]

theorem normal_normal (p : Path) : p.normal.normal = p.normal := by
  rw [normal_eq p.normal, isAbsolute_normal, names_normal, normal_eq]

/-- Normal forms tell names apart. -/
theorem normal_eq_normal_iff :
    p.normal = q.normal ↔ p.isAbsolute = q.isAbsolute ∧ p.names = q.names := by
  constructor
  · intro h
    rw [← isAbsolute_normal p, ← names_normal p, h, isAbsolute_normal, names_normal]
    exact ⟨rfl, rfl⟩
  · rintro ⟨habsolute, hnames⟩
    rw [normal_eq, normal_eq, habsolute, hnames]

theorem join_of_isAbsolute (p : Path) (h : q.isAbsolute) : p.join q = q := by
  rw [join, if_pos h]

/-! ## Ways between absolute paths -/

theorem mem_of_go {apart : Bool} (h : relativeTo?.go apart as bs = some cs) :
    ∀ c ∈ cs, c = .up ∨ c ∈ as := by
  fun_induction relativeTo?.go apart as bs generalizing cs with
  | case1 =>
    cases h
    simp
  | case2 apart as _ =>
    cases h
    exact fun c hc => .inr hc
  | case3 apart b bs ih =>
    obtain ⟨ds, hds, rfl⟩ := Option.map_eq_some_iff.1 h
    refine List.forall_mem_cons.2 ⟨.inl rfl, fun c hc => (ih hds c hc).imp id nofun⟩
  | case4 apart a as b bs _ ih =>
    exact fun c hc => (ih h c hc).imp id (List.mem_cons_of_mem a)
  | case5 apart a as b bs _ _ ih =>
    obtain ⟨ds, hds, rfl⟩ := Option.map_eq_some_iff.1 h
    refine List.forall_mem_cons.2 ⟨.inr List.mem_cons_self, fun c hc => ?_⟩
    exact (ih hds c hc).imp id (List.mem_cons_of_mem a)
  | case6 => cases h
  | case7 apart a as b bs =>
    cases h
    intro c hc
    rcases List.mem_append.1 hc with hc | hc
    · refine .inl ?_
      rcases List.mem_cons.1 hc with rfl | hc
      · rfl
      · obtain ⟨_, -, rfl⟩ := List.mem_map.1 hc
        rfl
    · exact .inr hc

/-- Components of a path behind its root can be parts of a relative one. -/
theorem isPart_of_mem_steps {c : Component} (h : c ∈ p.steps) : IsPart c.chars := by
  obtain ⟨⟨s, k⟩, hs, hc⟩ := List.mem_filterMap.1 h
  dsimp only at hc
  split at hc
  · rename_i hcounts
    rw [← Option.some.inj hc, chars_component]
    refine ⟨?_, slash_not_mem_of_mem_segments (List.fst_mem_of_mem_zipIdx hs)⟩
    rintro rfl
    cases hcounts
  · cases hc

theorem isPart_of_mem_go {apart : Bool} (h : relativeTo?.go apart p.steps bs = some cs) :
    ∀ c ∈ cs, IsPart c.chars := by
  intro c hc
  rcases mem_of_go h c hc with rfl | hmem
  · exact ⟨List.cons_ne_nil _ _, by decide⟩
  · exact isPart_of_mem_steps hmem

theorem isAbsolute_joined {ns : List (List Char)} (h : ∀ s ∈ ns, IsPart s) :
    (ofChars (joined ns)).isAbsolute = false := by
  rw [isAbsolute, chars_ofChars]
  cases ns with
  | nil => rfl
  | cons s ns =>
    obtain ⟨hne, hslash⟩ := h s List.mem_cons_self
    obtain ⟨x, xs, rfl⟩ := List.exists_cons_of_ne_nil hne
    have hx : x ≠ '/' := fun hx => hslash (hx ▸ List.mem_cons_self)
    cases ns with
    | nil => simpa [joined] using hx
    | cons t ns => simpa [joined, List.intercalate] using hx

theorem relativeTo?_of_isAbsolute (hp : p.isAbsolute) (hdir : dir.isAbsolute) :
    p.relativeTo? dir = (relativeTo?.go false p.steps dir.steps).map ofComponents := by
  rw [relativeTo?, hp, hdir, components_eq, components_eq, hp, hdir, if_neg (by decide), if_pos rfl,
    if_pos rfl, relativeTo?.go, if_pos (by simp)]

/-- A way from one absolute path to another one is relative. -/
theorem isAbsolute_of_relativeTo? (hp : p.isAbsolute) (hdir : dir.isAbsolute)
    (h : p.relativeTo? dir = some q) : q.isAbsolute = false := by
  rw [relativeTo?_of_isAbsolute hp hdir] at h
  obtain ⟨cs, hcs, rfl⟩ := Option.map_eq_some_iff.1 h
  have hparts := isPart_of_mem_go hcs
  rw [ofComponents_eq hparts]
  exact isAbsolute_joined (List.forall_mem_map.2 hparts)

/-! ## Ways lead back -/

/-- What is left of the names of a directory and a way from there. -/
theorem collapse_names_append_way {shared as' bs' : List Component}
    (has : as = shared ++ as') (hdir : dir.names.map Component.name = shared ++ bs') :
    collapse (dir.names ++ (wayApart as' bs').map Component.chars) =
      collapse (as.map Component.chars) := by
  have hnames : dir.names = shared.map Component.chars ++ bs'.map Component.chars := by
    rw [← List.map_append, ← hdir, List.map_map]
    exact (List.map_id dir.names).symm
  have hbs : ∀ s ∈ bs'.map Component.chars, IsName s := fun s hs =>
    (isStep_of_mem_names (hnames ▸ List.mem_append_right _ hs)).1
  have hup := collapse_append_up (shared.map Component.chars) (as'.map Component.chars) hbs
  have hway : (wayApart as' bs').map Component.chars =
      List.replicate (bs'.map Component.chars).length ['.', '.'] ++ as'.map Component.chars := by
    rw [wayApart, List.map_append, List.map_map, List.length_map, ← List.map_const']
    rfl
  rw [hway, hnames, List.append_assoc, hup, has, List.map_append]

theorem IsPlain.steps_eq_names (h : dir.IsPlain) : dir.steps = dir.names.map .name := by
  have hcomponents := h.components_eq
  rw [Path.components_eq, h.1, if_pos rfl] at hcomponents
  exact (List.cons.inj hcomponents).2

/-- From a directory without `..` there is a way to each absolute path, and it leads there. -/
theorem IsPlain.exists_way (hdir : dir.IsPlain) (hp : p.isAbsolute) :
    ∃ ns, (∀ s ∈ ns, IsPart s) ∧ p.relativeTo? dir = some (ofChars (joined ns)) ∧
      (dir.join (ofChars (joined ns))).normal = p.normal := by
  have hbs : ∀ c ∈ dir.names.map Component.name, c ≠ .here ∧ c ≠ .up :=
    List.forall_mem_map.2 fun s _ => ⟨nofun, nofun⟩
  obtain ⟨shared, as', bs', has, hdirNames, hgo⟩ := go_eq p.steps hbs
  have hparts := isPart_of_mem_go hgo
  have hns : ∀ s ∈ (wayApart as' bs').map Component.chars, IsPart s := List.forall_mem_map.2 hparts
  refine ⟨_, hns, ?_, normal_eq_normal_iff.2 ?_⟩
  · rw [relativeTo?_of_isAbsolute hp hdir.1, hdir.steps_eq_names, hgo, Option.map_some,
      ofComponents_eq hparts]
  · obtain ⟨habsolute, hnames⟩ := dir.join_of_relative (isAbsolute_joined hns)
    have hjoined := collapse_append_segments_joined dir.names fun s hs => (hns s hs).2
    refine ⟨habsolute.trans (hdir.1.trans hp.symm), ?_⟩
    calc (dir.join (ofChars (joined ((wayApart as' bs').map Component.chars)))).names
        = collapse (dir.names ++ segments (joined ((wayApart as' bs').map Component.chars))) := by
          rw [hnames, chars_ofChars, collapse_append]
          rfl
      _ = collapse (p.steps.map Component.chars) := by
          rw [hjoined, collapse_names_append_way has hdirNames]
      _ = p.names := (place_eq p).symm

theorem go_append (as bs : List Component) : relativeTo?.go false (bs ++ as) bs = some as := by
  induction bs with
  | nil => cases as <;> rfl
  | cons b bs ih =>
    rw [List.cons_append, relativeTo?.go]
    simpa using ih

/-- The way to what is below a directory goes down only. -/
theorem IsPlain.exists_way_of_isBelow (hp : p.IsPlain) (hdir : dir.IsPlain) (h : p.isBelow dir) :
    ∃ ns, p.relativeTo? dir = some (ofChars (joined ns)) ∧
      overshoot (segments (joined ns)) = 0 := by
  rw [isBelow, hp.components_eq, hdir.components_eq, List.isPrefixOf_iff_prefix,
    List.cons_prefix_cons] at h
  obtain ⟨as, has⟩ := h.2
  obtain ⟨ms, ns, hnames, hms, rfl⟩ := List.map_eq_append_iff.1 has.symm
  obtain rfl : ms = dir.names := List.map_injective_iff.2 (fun _ _ h => Component.name.inj h) hms
  have hns : ∀ s ∈ ns, IsStep s := fun s hs =>
    isStep_of_mem_names (hnames ▸ List.mem_append_right _ hs)
  have hparts : ∀ c ∈ ns.map Component.name, IsPart c.chars :=
    List.forall_mem_map.2 fun s hs => ⟨(hns s hs).1.1, (hns s hs).2⟩
  refine ⟨ns, ?_, ?_⟩
  · rw [relativeTo?_of_isAbsolute hp.1 hdir.1, hp.steps_eq_names, hdir.steps_eq_names, ← has,
      go_append, Option.map_some, ofComponents_eq hparts, List.map_map]
    exact congrArg (some <| ofChars <| joined ·) (List.map_id ns)
  · by_cases hnil : ns = []
    · subst hnil
      rfl
    · rw [segments_joined hnil fun s hs => (hns s hs).2]
      exact overshoot_of_isName fun s hs => (hns s hs).1

/-! ## Ways from other directories -/

/-- Whether two directories are the same some steps up. -/
def AgreeUp (p q : Path) (steps : Nat) : Prop :=
  p.isAbsolute = q.isAbsolute ∧
    p.names.take (p.names.length - steps) = q.names.take (q.names.length - steps)

instance (p q : Path) (steps : Nat) : Decidable (p.AgreeUp q steps) :=
  inferInstanceAs (Decidable (_ ∧ _))

theorem AgreeUp.refl (p : Path) (steps : Nat) : p.AgreeUp p steps := ⟨rfl, rfl⟩

theorem agreeUp_zero_iff : p.AgreeUp q 0 ↔ p.normal = q.normal := by
  rw [normal_eq_normal_iff, AgreeUp, Nat.sub_zero, Nat.sub_zero, List.take_length,
    List.take_length]

/-- A relative path means the same seen from two directories exactly if these agree as far up as it
climbs. -/
theorem normal_join_eq_iff (p q : Path) {r : Path} (hr : r.isAbsolute = false) :
    (p.join r).normal = (q.join r).normal ↔ p.AgreeUp q (overshoot (segments r.chars)) := by
  have hsteps : ∀ d : Path, ∀ s ∈ d.names, IsName s := fun d s hs => (isStep_of_mem_names hs).1
  have hnames : ∀ d : Path, (d.join r).names =
      d.names.take (d.names.length - overshoot (segments r.chars)) ++
        collapse (segments r.chars) := by
    intro d
    rw [(d.join_of_relative hr).2, collapse_append]
    exact collapse_append_of_isName (hsteps d) _
  rw [normal_eq_normal_iff, (p.join_of_relative hr).1, (q.join_of_relative hr).1, hnames, hnames,
    List.append_left_inj, AgreeUp]

end Path

end ModuleWorkers

import ModuleWorkers.Bundle.Graph
import ModuleWorkers.Proofs.Path.Url

/-!
# Ways between paths

A way from a directory to a file goes up out of what the two do not share and then down by names, so
it tells the file: its steps up are as many as the directory has names that the file does not share.
Hence the ids of modules, which are ways from the root directory, tell modules apart
(`BundledModule.idOf_injective`).
-/

namespace ModuleWorkers

namespace Path

variable {p q dir : Path} {cs ds as bs : List Component} {s : List Char} {ns : List (List Char)}

/-- An absolute path that never goes up. -/
def IsPlain (p : Path) : Prop := p.isAbsolute ∧ .up ∉ p.components

theorem IsPlain.components_eq (h : p.IsPlain) : p.components = .root :: p.names.map .name :=
  components_eq_names h.1 fun hup => h.2 (up_mem_components h.1 hup)

/-! ## Texts of ways -/

/-- A text that one component of a relative path can be. -/
def IsPart (s : List Char) : Prop := s ≠ [] ∧ '/' ∉ s

theorem endsWith_joined_eq_false (h : ∀ s ∈ ns, IsPart s) :
    (ofChars (joined ns)).text.endsWith "/" = false := by
  rw [Bool.eq_false_iff]
  intro hslash
  obtain ⟨cs, hcs⟩ := exists_chars_eq_of_endsWith hslash
  rw [chars_ofChars] at hcs
  rcases List.eq_nil_or_concat ns with rfl | ⟨init, t, rfl⟩
  · simp [joined] at hcs
  · rw [List.concat_eq_append] at h hcs
    obtain ⟨ht, hslash⟩ := h t (by simp)
    rcases List.eq_nil_or_concat t with rfl | ⟨u, c, rfl⟩
    · exact ht rfl
    · rw [List.concat_eq_append, joined_concat_append] at hcs
      obtain ⟨-, hc⟩ := List.append_inj' hcs rfl
      refine hslash ?_
      rw [List.concat_eq_append, hc]
      simp

theorem joined_ne_nil (hns : ns ≠ []) (h : ∀ s ∈ ns, IsPart s) : joined ns ≠ [] := by
  intro hnil
  have hsegments := segments_joined hns fun s hs => (h s hs).2
  rw [hnil] at hsegments
  exact (h [] (by rw [← hsegments]; exact List.mem_singleton_self [])).1 rfl

theorem join_joined (h : ∀ s ∈ ns, IsPart s) (hs : IsPart s) :
    (ofChars (joined ns)).join (ofChars s) = ofChars (joined (ns ++ [s])) := by
  have hrelative : (ofChars s).isAbsolute = false := by
    rw [isAbsolute, chars_ofChars, Bool.eq_false_iff]
    intro hhead
    exact hs.2 (List.mem_of_mem_head? (beq_iff_eq.1 hhead))
  rw [join, hrelative, if_neg Bool.false_ne_true, endsWith_joined_eq_false h, Bool.or_false]
  by_cases hns : ns = []
  · subst hns
    have hempty : (ofChars (joined [])).text.isEmpty = true := rfl
    rw [if_pos hempty]
    simp [ofChars, joined]
  · have hempty : (ofChars (joined ns)).text.isEmpty = false := by
      rw [Bool.eq_false_iff, String.isEmpty_iff.ne]
      exact fun hnil => joined_ne_nil hns h (by simpa [ofChars] using hnil)
    rw [hempty, if_neg Bool.false_ne_true, joined_concat hns]
    refine congrArg Path.mk (String.toList_injective ?_)
    simp [ofChars]

theorem ofComponents_eq (h : ∀ c ∈ cs, IsPart c.chars) :
    ofComponents cs = ofChars (joined (cs.map Component.chars)) := by
  have hfoldl : ∀ ns : List (List Char), (∀ s ∈ ns, IsPart s) →
      cs.foldl (fun p c => p.join (ofChars c.chars)) (ofChars (joined ns)) =
        ofChars (joined (ns ++ cs.map Component.chars)) := by
    induction cs with
    | nil => simp
    | cons c cs ih =>
      intro ns hns
      have hc := h c List.mem_cons_self
      rw [List.foldl_cons, join_joined hns hc, ih (fun d hd => h d (List.mem_cons_of_mem c hd)),
        List.map_cons, List.append_assoc]
      · rfl
      · intro t ht
        rcases List.mem_append.1 ht with ht | ht
        · exact hns t ht
        · exact List.mem_singleton.1 ht ▸ hc
  exact hfoldl [] nofun

theorem joined_injective {ms : List (List Char)} (hns : ∀ s ∈ ns, IsPart s)
    (hms : ∀ s ∈ ms, IsPart s) (h : joined ns = joined ms) : ns = ms := by
  by_cases hn : ns = [] <;> by_cases hm : ms = []
  · rw [hn, hm]
  · subst hn
    exact absurd h.symm (joined_ne_nil hm hms)
  · subst hm
    exact absurd h (joined_ne_nil hn hns)
  · rw [← segments_joined hn fun s hs => (hns s hs).2, h,
      segments_joined hm fun s hs => (hms s hs).2]

/-- A step of a way: up, or down to a name. -/
def Component.IsMove : Component → Prop
  | .root | .here => False
  | .up => True
  | .name s => IsStep s

theorem Component.IsMove.isPart {c : Component} (h : c.IsMove) : IsPart c.chars := by
  cases c with
  | root | here => exact h.elim
  | up => exact ⟨List.cons_ne_nil _ _, by decide⟩
  | name s => exact ⟨h.1.1, h.2⟩

theorem Component.IsMove.component_chars {c : Component} (h : c.IsMove) :
    component c.chars = c := by
  cases c with
  | root | here => exact h.elim
  | up => rfl
  | name s => exact component_of_isName h.1

/-- The text of a way tells its steps. -/
theorem eq_of_ofComponents_eq (hcs : ∀ c ∈ cs, c.IsMove) (hds : ∀ c ∈ ds, c.IsMove)
    (h : ofComponents cs = ofComponents ds) : cs = ds := by
  rw [ofComponents_eq fun c hc => (hcs c hc).isPart, ofComponents_eq fun c hc => (hds c hc).isPart]
    at h
  have hjoined := congrArg chars h
  rw [chars_ofChars, chars_ofChars] at hjoined
  have hchars : cs.map Component.chars = ds.map Component.chars :=
    joined_injective (List.forall_mem_map.2 fun c hc => (hcs c hc).isPart)
      (List.forall_mem_map.2 fun c hc => (hds c hc).isPart) hjoined
  have hback : ∀ es : List Component, (∀ c ∈ es, c.IsMove) →
      (es.map Component.chars).map component = es := by
    intro es hes
    rw [List.map_map]
    exact (List.map_congr_left fun c hc => (hes c hc).component_chars).trans (List.map_id es)
  rw [← hback cs hcs, hchars, hback ds hds]

/-! ## Steps of ways -/

/-- The way to `as` from `bs` once the two went apart. -/
def wayApart (as bs : List Component) : List Component := bs.map (fun _ => .up) ++ as

theorem go_true_nil (hbs : ∀ c ∈ bs, c ≠ .here ∧ c ≠ .up) :
    relativeTo?.go true [] bs = some (wayApart [] bs) := by
  induction bs with
  | nil => rfl
  | cons b bs ih =>
    rw [relativeTo?.go, ih fun c hc => hbs c (List.mem_cons_of_mem b hc)]
    rfl

/-- A way goes up out of what is not shared, and then down. -/
theorem go_eq (as : List Component) (hbs : ∀ c ∈ bs, c ≠ .here ∧ c ≠ .up) :
    ∃ shared as' bs', as = shared ++ as' ∧ bs = shared ++ bs' ∧
      relativeTo?.go false as bs = some (wayApart as' bs') := by
  induction bs generalizing as with
  | nil => exact ⟨[], as, [], rfl, rfl, by cases as <;> rfl⟩
  | cons b bs ih =>
    have hbs' : ∀ c ∈ bs, c ≠ .here ∧ c ≠ .up := fun c hc => hbs c (List.mem_cons_of_mem b hc)
    cases as with
    | nil =>
      refine ⟨[], [], b :: bs, rfl, rfl, ?_⟩
      rw [relativeTo?.go, go_true_nil hbs']
      rfl
    | cons a as =>
      by_cases hab : a = b
      · subst hab
        obtain ⟨shared, as', bs', has, hbs, hgo⟩ := ih as hbs'
        refine ⟨a :: shared, as', bs', by rw [has]; rfl, by rw [hbs]; rfl, ?_⟩
        rw [relativeTo?.go]
        simpa using hgo
      · refine ⟨[], a :: as, b :: bs, rfl, rfl, ?_⟩
        obtain ⟨hhere, hup⟩ := hbs b List.mem_cons_self
        rw [relativeTo?.go]
        simp [hab, hhere, hup, wayApart]

/-- The steps up of a way tell how much is shared, so that a way from `bs` tells where it leads. -/
theorem eq_of_wayApart_eq {shared shared' as' bs' ds' es' : List Component}
    (has : as = shared ++ as') (hbs : bs = shared ++ bs') (hds : ds = shared' ++ ds')
    (hes : bs = shared' ++ es') (hup : .up ∉ as) (hup' : .up ∉ ds)
    (h : wayApart as' bs' = wayApart ds' es') : as = ds := by
  have hcount := congrArg (List.count .up) h
  have hnone : .up ∉ as' := fun hmem => hup (has ▸ List.mem_append_right shared hmem)
  have hnone' : .up ∉ ds' := fun hmem => hup' (hds ▸ List.mem_append_right shared' hmem)
  simp only [wayApart, List.count_append, List.count_eq_zero.2 hnone, List.count_eq_zero.2 hnone',
    List.map_const', List.count_replicate_self, Nat.add_zero] at hcount
  obtain ⟨rfl, rfl⟩ := List.append_inj' (hbs.symm.trans hes) hcount
  rw [has, hds, List.append_cancel_left h]

theorem IsPlain.relativeTo?_eq (hp : p.IsPlain) (hdir : dir.IsPlain) : ∃ shared as' bs',
    p.names.map .name = shared ++ as' ∧ dir.names.map .name = shared ++ bs' ∧
      p.relativeTo? dir = some (ofComponents (wayApart as' bs')) ∧
      ∀ c ∈ wayApart as' bs', c.IsMove := by
  have hnames : ∀ {r : Path}, ∀ c ∈ r.names.map Component.name, c ≠ .here ∧ c ≠ .up ∧ c.IsMove := by
    intro r c hc
    obtain ⟨s, hs, rfl⟩ := List.mem_map.1 hc
    exact ⟨nofun, nofun, isStep_of_mem_names hs⟩
  obtain ⟨shared, as', bs', has, hbs, hgo⟩ := go_eq (p.names.map .name)
    fun c hc => let ⟨hhere, hup, _⟩ := hnames (r := dir) c hc; ⟨hhere, hup⟩
  refine ⟨shared, as', bs', has, hbs, ?_, fun c hc => ?_⟩
  · rw [relativeTo?, hp.1, hdir.1, hp.components_eq, hdir.components_eq, relativeTo?.go]
    simp [hgo]
  · rcases List.mem_append.1 hc with hc | hc
    · obtain ⟨b, -, rfl⟩ := List.mem_map.1 hc
      exact trivial
    · exact (hnames (r := p) c (has ▸ List.mem_append_right shared hc)).2.2

end Path

open ModuleWorkers.Path in
/-- Ids tell modules apart whose paths do not go up. -/
theorem BundledModule.idOf_injective {root p q : Path} (hroot : root.IsPlain) (hp : p.IsPlain)
    (hq : q.IsPlain) (h : idOf root p = idOf root q) : (p == q) = true := by
  obtain ⟨shared, as, bs, has, hbs, hway, hmoves⟩ := hp.relativeTo?_eq hroot
  obtain ⟨shared', ds, es, hds, hes, hway', hmoves'⟩ := hq.relativeTo?_eq hroot
  rw [idOf, idOf, hway, hway', Option.getD_some, Option.getD_some] at h
  have hsame := eq_of_ofComponents_eq hmoves hmoves' (congrArg Path.mk h)
  have hup : ∀ r : Path, .up ∉ r.names.map Component.name := by simp
  rw [beq_iff, hp.components_eq, hq.components_eq,
    eq_of_wayApart_eq has hbs hds hes (hup p) (hup q) hsame]

end ModuleWorkers

import ModuleWorkers.Proofs.Path.Pieces
import ModuleWorkers.Proofs.Path.Relative

/-!
# Detours

The id of a module is the way to its file from the root directory. A path may go on towards the root
directory and then back by `..`; the way to it starts where it turns back, and is the same as the way
to the path that turns off at once (`Path.IsDetour`). These are the only absolute paths that share an
id (`BundledModule.idOf_eq_iff`).
-/

namespace ModuleWorkers

namespace Path

variable {p q dir : Path} {cs ds as bs shared : List Component}

/-- A path that goes towards a directory and back by `..`, and one that turns off before. -/
def IsDetour (dir p q : Path) : Prop :=
  ∃ front detour back : List Component, detour ≠ [] ∧ front ++ detour <+: dir.components ∧
    back.head? ≠ detour.head? ∧ q.components = front ++ back ∧
    p.components = front ++ (detour ++ (List.replicate detour.length .up ++ back))

/-- Two lists of steps that do not start alike. -/
def AreApart (as bs : List Component) : Prop := ∀ c, as.head? = some c → bs.head? ≠ some c

theorem exists_areApart (as bs : List Component) : ∃ shared as' bs',
    as = shared ++ as' ∧ bs = shared ++ bs' ∧ AreApart as' bs' := by
  induction as generalizing bs with
  | nil => exact ⟨[], [], bs, rfl, rfl, nofun⟩
  | cons a as ih =>
    cases bs with
    | nil => exact ⟨[], a :: as, [], rfl, rfl, nofun⟩
    | cons b bs =>
      by_cases hab : a = b
      · obtain ⟨shared, as', bs', rfl, rfl, hapart⟩ := ih bs
        exact ⟨a :: shared, as', bs', rfl, hab ▸ rfl, hapart⟩
      · refine ⟨[], a :: as, b :: bs, rfl, rfl, fun c hc hc' => hab ?_⟩
        cases hc
        exact (Option.some.inj hc').symm

/-- A way leaves what is shared where the two go apart. -/
theorem go_of_areApart (shared : List Component) (h : AreApart as bs)
    (hbs : ∀ c ∈ bs, c ≠ .here ∧ c ≠ .up) :
    relativeTo?.go false (shared ++ as) (shared ++ bs) = some (wayApart as bs) := by
  induction shared with
  | nil =>
    cases bs with
    | nil => cases as <;> rfl
    | cons b bs =>
      cases as with
      | nil =>
        exact (congrArg (Option.map (Component.up :: ·))
          (go_true_nil fun c hc => hbs c (List.mem_cons_of_mem b hc)))
      | cons a as =>
        have hab : a ≠ b := fun hab => h a rfl (hab ▸ rfl)
        obtain ⟨hhere, hup⟩ := hbs b List.mem_cons_self
        rw [List.nil_append, List.nil_append, relativeTo?.go]
        simp [hab, hhere, hup, wayApart]
  | cons c shared ih =>
    rw [List.cons_append, List.cons_append, relativeTo?.go]
    simpa using ih

theorem isMove_of_mem_pieces {c : Component} (hc : c ∈ p.pieces.map component) : c.IsMove := by
  obtain ⟨s, hs, rfl⟩ := List.mem_map.1 hc
  obtain ⟨hs, hpiece⟩ := List.mem_filter.1 hs
  by_cases hup : s = ['.', '.']
  · rw [hup]
    exact trivial
  · have hname := isName_of_isPiece hpiece hup
    rw [component_of_isName hname]
    exact ⟨hname, slash_not_mem_of_mem_segments hs⟩

/-- The way from a directory that never goes up to an absolute path. -/
theorem IsPlain.relativeTo?_of_areApart (hdir : dir.IsPlain) (hp : p.isAbsolute)
    (hpieces : p.pieces.map component = shared ++ as)
    (hnames : dir.names.map .name = shared ++ bs) (h : AreApart as bs) :
    p.relativeTo? dir = some (ofComponents (wayApart as bs)) ∧
      ∀ c ∈ wayApart as bs, c.IsMove := by
  have hbs : ∀ c ∈ bs, c ≠ .here ∧ c ≠ .up := by
    intro c hc
    obtain ⟨s, -, rfl⟩ := List.mem_map.1 (hnames ▸ List.mem_append_right shared hc)
    exact ⟨nofun, nofun⟩
  have hgo := go_of_areApart (.root :: shared) h hbs
  rw [List.cons_append, List.cons_append, ← hpieces, ← hnames, ← components_eq_pieces hp,
    ← hdir.components_eq] at hgo
  refine ⟨?_, fun c hc => ?_⟩
  · rw [relativeTo?, hp, hdir.1, hgo]
    rfl
  · rcases List.mem_append.1 hc with hc | hc
    · obtain ⟨b, -, rfl⟩ := List.mem_map.1 hc
      exact trivial
    · exact isMove_of_mem_pieces (hpieces ▸ List.mem_append_right shared hc)

/-- Where a way goes on behind a detour, and where it goes if it turns off. -/
theorem wayApart_detour (detour rest back : List Component) :
    wayApart (List.replicate detour.length .up ++ back) rest = wayApart back (detour ++ rest) := by
  simp only [wayApart, List.map_const', List.length_append]
  rw [← List.append_assoc, List.replicate_append_replicate, Nat.add_comm]

end Path

namespace BundledModule

open ModuleWorkers.Path

variable {root p q : Path}

theorem idOf_of_areApart {shared as bs : List Component} (hroot : root.IsPlain) (hp : p.isAbsolute)
    (hpieces : p.pieces.map component = shared ++ as)
    (hnames : root.names.map .name = shared ++ bs) (h : AreApart as bs) :
    idOf root p = (ofComponents (wayApart as bs)).text := by
  rw [idOf, (hroot.relativeTo?_of_areApart hp hpieces hnames h).1, Option.getD_some]

/-- A path that goes towards the root directory and back has the id of the one that does not. -/
theorem idOf_eq_of_isDetour (hroot : root.IsPlain) (hp : p.isAbsolute) (hq : q.isAbsolute)
    (h : IsDetour root p q) : idOf root p = idOf root q := by
  obtain ⟨front, detour, back, hdetour, ⟨rest, hrest⟩, hhead, hback, hforth⟩ := h
  rw [hroot.components_eq] at hrest
  rw [components_eq_pieces hq] at hback
  rw [components_eq_pieces hp] at hforth
  obtain ⟨b, bs, rfl⟩ := List.exists_cons_of_ne_nil hdetour
  cases front with
  | nil =>
    obtain ⟨rfl, -⟩ := List.cons.inj hrest
    exact absurd (by rw [← List.nil_append back, ← hback]; rfl) hhead
  | cons c shared =>
    have hrest : shared ++ (b :: bs) ++ rest = root.names.map .name := (List.cons.inj hrest).2
    have hback : q.pieces.map component = shared ++ back := (List.cons.inj hback).2
    have hforth : p.pieces.map component = shared ++ (b :: bs) ++
        (List.replicate (b :: bs).length .up ++ back) :=
      (List.cons.inj hforth).2.trans (List.append_assoc ..).symm
    have hup : .up ∉ root.names.map Component.name := by simp
    have hturned : AreApart (List.replicate (b :: bs).length .up ++ back) rest := by
      intro c hc hc'
      obtain rfl : Component.up = c := by simpa [List.replicate_succ] using hc
      exact hup (hrest ▸ List.mem_append_right _ (List.mem_of_mem_head? hc'))
    have hoff : AreApart back ((b :: bs) ++ rest) := fun c hc hc' => hhead (hc.trans hc'.symm)
    have hnames : root.names.map .name = shared ++ ((b :: bs) ++ rest) :=
      hrest.symm.trans (List.append_assoc ..)
    rw [idOf_of_areApart hroot hp hforth hrest.symm hturned,
      idOf_of_areApart hroot hq hback hnames hoff, wayApart_detour]

/-- Of two paths with the same id, the one that follows the root directory further goes back as far
as the other one turned off before. -/
theorem isDetour_of_wayApart_eq {shared shared' as bs ds es : List Component} (hroot : root.IsPlain)
    (hp : p.isAbsolute) (hq : q.isAbsolute) (hpieces : p.pieces.map component = shared ++ as)
    (hnames : root.names.map .name = shared ++ bs)
    (hpieces' : q.pieces.map component = shared' ++ ds)
    (hnames' : root.names.map .name = shared' ++ es) (hapart : AreApart ds es)
    (h : wayApart as bs = wayApart ds es) (hle : bs.length ≤ es.length) :
    (p == q) = true ∨ IsDetour root p q := by
  obtain ⟨detour, rfl, rfl⟩ : ∃ detour, shared = shared' ++ detour ∧ es = detour ++ bs := by
    rcases List.append_eq_append_iff.1 (hnames'.symm.trans hnames) with
      ⟨detour, hshared, hes⟩ | ⟨detour, hshared, hbs⟩
    · exact ⟨detour, hshared, hes⟩
    · obtain rfl : detour = [] := by
        have := congrArg List.length hbs
        rw [List.length_append] at this
        exact List.eq_nil_of_length_eq_zero (by omega)
      exact ⟨[], by simpa using hshared.symm, hbs.symm⟩
  have has : as = List.replicate detour.length .up ++ ds := by
    rw [← wayApart_detour] at h
    unfold wayApart at h
    exact List.append_cancel_left h
  by_cases hdetour : detour = []
  · left
    subst hdetour
    rw [beq_iff, components_eq_pieces hp, components_eq_pieces hq, hpieces, hpieces', has,
      List.append_nil]
    rfl
  · right
    refine ⟨.root :: shared', detour, ds, hdetour, ⟨bs, ?_⟩, fun hhead => ?_, ?_, ?_⟩
    · rw [hroot.components_eq, hnames]
      rfl
    · obtain ⟨b, rest, rfl⟩ := List.exists_cons_of_ne_nil hdetour
      exact hapart b hhead rfl
    · rw [components_eq_pieces hq, hpieces']
      rfl
    · rw [components_eq_pieces hp, hpieces, has, List.append_assoc]
      rfl

/-- Two absolute paths have the same id exactly if they are equal, or one of them is a detour to the
other. -/
theorem idOf_eq_iff (hroot : root.IsPlain) (hp : p.isAbsolute) (hq : q.isAbsolute) :
    idOf root p = idOf root q ↔ (p == q) = true ∨ IsDetour root p q ∨ IsDetour root q p := by
  constructor
  · intro h
    obtain ⟨shared, as, bs, hpieces, hnames, hapart⟩ :=
      exists_areApart (p.pieces.map component) (root.names.map .name)
    obtain ⟨shared', ds, es, hpieces', hnames', hapart'⟩ :=
      exists_areApart (q.pieces.map component) (root.names.map .name)
    rw [idOf_of_areApart hroot hp hpieces hnames hapart,
      idOf_of_areApart hroot hq hpieces' hnames' hapart'] at h
    have hmoves := (hroot.relativeTo?_of_areApart hp hpieces hnames hapart).2
    have hmoves' := (hroot.relativeTo?_of_areApart hq hpieces' hnames' hapart').2
    have hways := eq_of_ofComponents_eq hmoves hmoves' (congrArg Path.mk h)
    rcases Nat.le_total bs.length es.length with hle | hle
    · rcases isDetour_of_wayApart_eq hroot hp hq hpieces hnames hpieces' hnames' hapart' hways hle
        with hsame | hdetour
      · exact .inl hsame
      · exact .inr (.inl hdetour)
    · rcases isDetour_of_wayApart_eq hroot hq hp hpieces' hnames' hpieces hnames hapart hways.symm
        hle with hsame | hdetour
      · exact .inl (BEq.symm hsame)
      · exact .inr (.inr hdetour)
  · rintro (hsame | hdetour | hdetour)
    · obtain ⟨shared, as, bs, hpieces, hnames, hapart⟩ :=
        exists_areApart (p.pieces.map component) (root.names.map .name)
      have hsame := (beq_iff_pieces hp hq).1 hsame
      rw [idOf_of_areApart hroot hp hpieces hnames hapart,
        idOf_of_areApart hroot hq (hsame ▸ hpieces) hnames hapart]
    · exact idOf_eq_of_isDetour hroot hp hq hdetour
    · exact (idOf_eq_of_isDetour hroot hq hp hdetour).symm

end BundledModule

end ModuleWorkers

import Mathlib.Data.List.Forall2
import ModuleWorkers.Proofs.SourceMap.Segments
import ModuleWorkers.SourceMap.Json

/-!
# Tables of sources and names

`SourceMap.origin?` reads a location as the texts that its indexes stand for. Tables only grow
(`SourceMap.Extends`), so what an index stood for it still stands for (`Extends.origin?_eq`). Where
the entries of one map went when they were added to another one is a reindexing that leads there
(`Reindexing.Leads`); it moves the indexes of a location so that they stand for the same texts
(`Reindexing.Leads.exists_apply`).
-/

namespace ModuleWorkers

/-- What a location stands for: a place in a source of a path, and a name. -/
structure Origin where
  source : String
  line : Nat
  column : Nat
  name : Option String
  deriving DecidableEq, Repr

/-- The origin for a map of another root directory. -/
def Origin.relativeTo (root : Path) (o : Origin) : Origin :=
  { o with source := Source.relativePath root o.source }

namespace SourceMap

/-- The path of a source. -/
def path? (m : SourceMap) (k : Nat) : Option String := m.sources[k]?.map (·.path)

/-- What a location stands for, if its indexes are in the tables. -/
def origin? (m : SourceMap) (o : Location) : Option Origin := do
  let source ← m.path? o.source
  match o.name with
  | none => return ⟨source, o.line, o.column, none⟩
  | some k => return ⟨source, o.line, o.column, some (← m.names[k]?)⟩

/-- Where the text at a place comes from. A text that was made up comes from nowhere. -/
def originAt? (m : SourceMap) (line column : Nat) : Option (Option Origin) :=
  (m.closest? line column).map fun s => s.location.bind m.origin?

/-- Whether the indexes of a location are in the tables. -/
def Locates (m : SourceMap) (o : Location) : Prop :=
  o.source < m.sources.length ∧ ∀ k ∈ o.name, k < m.names.length

/-- Whether the indexes of all segments are in the tables. -/
def IsIndexed (m : SourceMap) : Prop := ∀ s ∈ m.mappings, ∀ o ∈ s.location, m.Locates o

instance (m : SourceMap) (o : Location) : Decidable (m.Locates o) :=
  inferInstanceAs (Decidable (o.source < m.sources.length ∧ ∀ k ∈ o.name, k < m.names.length))

instance (m : SourceMap) : Decidable m.IsIndexed :=
  inferInstanceAs (Decidable (∀ s ∈ m.mappings, ∀ o ∈ s.location, m.Locates o))

/-- An origin is the texts that the indexes of a location stand for. -/
theorem origin?_eq_some_iff {m : SourceMap} {o : Location} {x : Origin} :
    m.origin? o = some x ↔ m.path? o.source = some x.source ∧ o.line = x.line ∧
      o.column = x.column ∧ o.name.map (m.names[·]?) = x.name.map some := by
  cases o with
  | mk source line column name =>
    cases x with
    | mk xsource xline xcolumn xname =>
      unfold origin?
      cases m.path? source with
      | none => simp
      | some path =>
        cases name with
        | none => cases xname <;> simp [eq_comm]
        | some k =>
          simp only [Option.bind_eq_bind, Option.bind_some, Option.map_some]
          cases m.names[k]? <;> cases xname <;> simp

theorem locates_of_origin? {m : SourceMap} {o : Location} {x : Origin} (h : m.origin? o = some x) :
    m.Locates o := by
  obtain ⟨hsource, -, -, hname⟩ := origin?_eq_some_iff.1 h
  obtain ⟨s, hs, -⟩ := Option.map_eq_some_iff.1 hsource
  obtain ⟨hlt, -⟩ := List.getElem?_eq_some_iff.1 hs
  refine ⟨hlt, fun k hk => ?_⟩
  rw [Option.mem_def.1 hk, Option.map_some] at hname
  obtain ⟨n, -, hn⟩ := Option.map_eq_some_iff.1 hname.symm
  exact (List.getElem?_eq_some_iff.1 hn.symm).1

theorem Locates.exists_origin? {m : SourceMap} {o : Location} (h : m.Locates o) :
    ∃ x, m.origin? o = some x := by
  obtain ⟨hsource, hname⟩ := h
  have hpath : m.path? o.source = some m.sources[o.source].path := by
    rw [path?, List.getElem?_eq_getElem hsource, Option.map_some]
  cases hk : o.name with
  | none =>
    exact ⟨⟨_, _, _, none⟩, origin?_eq_some_iff.2 ⟨hpath, rfl, rfl, by rw [hk]; rfl⟩⟩
  | some k =>
    have hget := List.getElem?_eq_getElem (hname k hk)
    exact ⟨⟨_, _, _, some _⟩, origin?_eq_some_iff.2 ⟨hpath, rfl, rfl, by
      rw [hk, Option.map_some, hget]; rfl⟩⟩

/-! ## Tables that grow -/

/-- Whether the tables of a map begin with those of another one of the same lines. Contents of
sources may differ. -/
structure Extends (m' m : SourceMap) : Prop where
  root : m'.root = m.root
  file : m'.file = m.file
  lines : m'.lines = m.lines
  paths : m.sources.map (·.path) <+: m'.sources.map (·.path)
  names : m.names <+: m'.names

theorem Extends.refl (m : SourceMap) : m.Extends m :=
  ⟨rfl, rfl, rfl, List.prefix_refl _, List.prefix_refl _⟩

theorem Extends.trans {m'' m' m : SourceMap} (h' : m''.Extends m') (h : m'.Extends m) :
    m''.Extends m :=
  ⟨h'.root.trans h.root, h'.file.trans h.file, h'.lines.trans h.lines, h.paths.trans h'.paths,
    h.names.trans h'.names⟩

theorem Extends.closest?_eq {m' m : SourceMap} (h : m'.Extends m) (line column : Nat) :
    m'.closest? line column = m.closest? line column := by
  unfold closest?
  rw [h.lines]

theorem Extends.mappings_eq {m' m : SourceMap} (h : m'.Extends m) : m'.mappings = m.mappings := by
  unfold mappings
  rw [h.lines]

theorem path?_eq_getElem? (m : SourceMap) (k : Nat) :
    m.path? k = (m.sources.map (·.path))[k]? := by
  rw [path?, List.getElem?_map]

theorem getElem?_of_begins {α : Type} {xs ys : List α} (h : xs <+: ys) {k : Nat} {x : α}
    (hx : xs[k]? = some x) : ys[k]? = some x := by
  obtain ⟨hk, rfl⟩ := List.getElem?_eq_some_iff.1 hx
  exact List.prefix_iff_getElem?.1 h k hk

theorem Extends.path?_eq {m' m : SourceMap} (h : m'.Extends m) {k : Nat} {path : String}
    (hk : m.path? k = some path) : m'.path? k = some path := by
  rw [path?_eq_getElem?] at hk ⊢
  exact getElem?_of_begins h.paths hk

theorem Extends.map_names {m' m : SourceMap} (h : m'.Extends m) {k : Option Nat}
    {n : Option String} (hk : k.map (m.names[·]?) = n.map some) :
    k.map (m'.names[·]?) = n.map some := by
  cases k with
  | none => exact hk
  | some k =>
    obtain ⟨n, rfl, hn⟩ := Option.map_eq_some_iff.1 hk.symm
    rw [Option.map_some, Option.map_some, getElem?_of_begins h.names hn.symm]

/-- What a location stood for it still stands for. -/
theorem Extends.origin?_eq {m' m : SourceMap} (h : m'.Extends m) {o : Location} {x : Origin}
    (ho : m.origin? o = some x) : m'.origin? o = some x := by
  obtain ⟨hsource, hline, hcolumn, hname⟩ := origin?_eq_some_iff.1 ho
  exact origin?_eq_some_iff.2 ⟨h.path?_eq hsource, hline, hcolumn, h.map_names hname⟩

theorem sourceIndex?_eq_findIdx? (m : SourceMap) (source : String) :
    m.sourceIndex? source =
      (m.sources.map (·.path)).findIdx? (· == Source.relativePath m.root source) := by
  rw [sourceIndex?, List.findIdx?_map]
  rfl

theorem Extends.sourceIndex?_eq {m' m : SourceMap} (h : m'.Extends m) {source : String} {k : Nat}
    (hk : m.sourceIndex? source = some k) : m'.sourceIndex? source = some k := by
  rw [sourceIndex?_eq_findIdx?] at hk ⊢
  obtain ⟨paths, hpaths⟩ := h.paths
  rw [h.root, ← hpaths, List.findIdx?_append, hk]
  rfl

theorem path?_of_sourceIndex? {m : SourceMap} {source : String} {k : Nat}
    (h : m.sourceIndex? source = some k) :
    m.path? k = some (Source.relativePath m.root source) := by
  rw [sourceIndex?_eq_findIdx?] at h
  obtain ⟨hk, hpath, -⟩ := List.findIdx?_eq_some_iff_getElem.1 h
  rw [path?_eq_getElem?, List.getElem?_eq_getElem hk, beq_iff_eq.1 hpath]

/-! ## Adding to tables -/

theorem extends_addSource (m : SourceMap) (source : String) :
    (m.addSource source).2.Extends m := by
  unfold addSource
  split
  · exact .refl m
  · exact ⟨rfl, rfl, rfl, by simp, List.prefix_refl _⟩

theorem sourceIndex?_addSource (m : SourceMap) (source : String) :
    (m.addSource source).2.sourceIndex? source = some (m.addSource source).1 := by
  unfold addSource
  split
  · assumption
  · rename_i h
    rw [sourceIndex?_eq_findIdx?] at h ⊢
    simp only [List.map_append, List.map_cons, List.map_nil, List.findIdx?_append, h]
    simp

theorem map_path_withContent (m : SourceMap) (k : Nat) (content : String) :
    (m.withContent k content).sources.map (·.path) = m.sources.map (·.path) := by
  refine List.ext_getElem? fun j => ?_
  rw [withContent, List.getElem?_map, List.getElem?_map, List.getElem?_modify]
  cases m.sources[j]? with
  | none => rfl
  | some s => simp only [Option.map_some]; split <;> rfl

theorem extends_withContent (m : SourceMap) (k : Nat) (content : String) :
    (m.withContent k content).Extends m :=
  ⟨rfl, rfl, rfl, m.map_path_withContent k content ▸ List.prefix_refl _, List.prefix_refl _⟩

/-- A source of a path and a content that may be known. -/
def addKnownSource (m : SourceMap) (s : String × Option String) : SourceMap :=
  match s.2 with
  | some content => (m.addSource s.1).2.withContent (m.addSource s.1).1 content
  | none => (m.addSource s.1).2

theorem addSources_cons (m : SourceMap) (s : String × Option String)
    (ss : List (String × Option String)) :
    m.addSources (s :: ss) =
      ((m.addSource s.1).1 :: ((m.addKnownSource s).addSources ss).1,
        ((m.addKnownSource s).addSources ss).2) := by
  obtain ⟨path, content⟩ := s
  cases content <;> rfl

/-- A content that is empty counts as not known. -/
theorem mergeSources_eq_addSources (m : SourceMap) (ss : List Source) :
    m.mergeSources ss =
      m.addSources
        (ss.map fun s => (s.path, if s.content.isEmpty then none else some s.content)) := by
  induction ss generalizing m with
  | nil => rfl
  | cons s ss ih =>
    rw [List.map_cons, addSources_cons, mergeSources]
    simp only [ih, addKnownSource]
    by_cases h : s.content.isEmpty <;> simp [h]

theorem extends_addKnownSource (m : SourceMap) (s : String × Option String) :
    (m.addKnownSource s).Extends m := by
  unfold addKnownSource
  split
  · exact (extends_withContent _ _ _).trans (extends_addSource m s.1)
  · exact extends_addSource m s.1

theorem sourceIndex?_addKnownSource (m : SourceMap) (s : String × Option String) :
    (m.addKnownSource s).sourceIndex? s.1 = some (m.addSource s.1).1 := by
  unfold addKnownSource
  split
  · exact (extends_withContent _ _ _).sourceIndex?_eq (sourceIndex?_addSource m s.1)
  · exact sourceIndex?_addSource m s.1

theorem extends_addSources (m : SourceMap) (ss : List (String × Option String)) :
    (m.addSources ss).2.Extends m := by
  induction ss generalizing m with
  | nil => exact .refl m
  | cons s ss ih =>
    rw [addSources_cons]
    exact (ih _).trans (extends_addKnownSource m s)

/-- Each source is found at the index that was given for it. -/
theorem forall₂_addSources (m : SourceMap) (ss : List (String × Option String)) :
    List.Forall₂ (fun s k => (m.addSources ss).2.sourceIndex? s.1 = some k) ss
      (m.addSources ss).1 := by
  induction ss generalizing m with
  | nil => exact .nil
  | cons s ss ih =>
    rw [addSources_cons]
    exact .cons ((extends_addSources _ ss).sourceIndex?_eq (sourceIndex?_addKnownSource m s)) (ih _)

theorem extends_addName (m : SourceMap) (name : String) : (m.addName name).2.Extends m := by
  unfold addName
  split
  · exact .refl m
  · exact ⟨rfl, rfl, rfl, List.prefix_refl _, List.prefix_append _ _⟩

theorem getElem?_names_addName (m : SourceMap) (name : String) :
    (m.addName name).2.names[(m.addName name).1]? = some name := by
  unfold addName
  split
  · rename_i k h
    obtain ⟨hk, hname, -⟩ := List.findIdx?_eq_some_iff_getElem.1 h
    rw [List.getElem?_eq_getElem hk, beq_iff_eq.1 hname]
  · simp

theorem mergeNames_cons (m : SourceMap) (n : String) (ns : List String) :
    m.mergeNames (n :: ns) =
      ((m.addName n).1 :: ((m.addName n).2.mergeNames ns).1, ((m.addName n).2.mergeNames ns).2) :=
  rfl

theorem extends_mergeNames (m : SourceMap) (ns : List String) : (m.mergeNames ns).2.Extends m := by
  induction ns generalizing m with
  | nil => exact .refl m
  | cons n ns ih => exact (ih _).trans (extends_addName m n)

theorem sources_mergeNames (m : SourceMap) (ns : List String) :
    (m.mergeNames ns).2.sources = m.sources := by
  induction ns generalizing m with
  | nil => rfl
  | cons n ns ih =>
    rw [mergeNames_cons, ih, addName]
    split <;> rfl

theorem forall₂_mergeNames (m : SourceMap) (ns : List String) :
    List.Forall₂ (fun n k => (m.mergeNames ns).2.names[k]? = some n) ns (m.mergeNames ns).1 := by
  induction ns generalizing m with
  | nil => exact .nil
  | cons n ns ih =>
    rw [mergeNames_cons]
    exact .cons (getElem?_of_begins (extends_mergeNames _ ns).names (getElem?_names_addName m n))
      (ih _)

/-! ## Contents -/

theorem getElem?_addKnownSource_of_ne {m : SourceMap} {k : Nat} {t : Source}
    (hk : m.sources[k]? = some t) {s : String × Option String}
    (hs : Source.relativePath m.root s.1 ≠ t.path) :
    (m.addKnownSource s).sources[k]? = some t := by
  have hadd : (m.addSource s.1).2.sources[k]? = some t := by
    unfold addSource
    split
    · exact hk
    · exact getElem?_of_begins (List.prefix_append _ _) hk
  unfold addKnownSource
  split
  · have hne : (m.addSource s.1).1 ≠ k := by
      rintro rfl
      have hpath := path?_of_sourceIndex? (sourceIndex?_addSource m s.1)
      rw [path?, hadd, (extends_addSource m s.1).root] at hpath
      exact hs (Option.some.inj hpath).symm
    simpa [withContent, List.getElem?_modify, hne] using hadd
  · exact hadd

theorem getElem?_addSources_of_ne {m : SourceMap} {k : Nat} {t : Source}
    (hk : m.sources[k]? = some t) {ss : List (String × Option String)}
    (hss : ∀ s ∈ ss, Source.relativePath m.root s.1 ≠ t.path) :
    (m.addSources ss).2.sources[k]? = some t := by
  induction ss generalizing m with
  | nil => exact hk
  | cons s ss ih =>
    rw [addSources_cons]
    refine ih (getElem?_addKnownSource_of_ne hk (hss s List.mem_cons_self)) fun u hu => ?_
    rw [(extends_addKnownSource m s).root]
    exact hss u (List.mem_cons_of_mem s hu)

theorem getElem?_addKnownSource (m : SourceMap) (path content : String) :
    (m.addKnownSource (path, some content)).sources[(m.addSource path).1]? =
      some ⟨Source.relativePath m.root path, content⟩ := by
  have hpath := path?_of_sourceIndex? (sourceIndex?_addSource m path)
  obtain ⟨s, hs, hspath⟩ := Option.map_eq_some_iff.1 hpath
  change ((m.addSource path).2.withContent (m.addSource path).1 content).sources[_]? = _
  rw [withContent, List.getElem?_modify_eq, hs, ← (extends_addSource m path).root, ← hspath]
  rfl

/-- Sources that are told apart keep the contents that they came with. -/
theorem exists_content_addSources {m : SourceMap} {ss : List (String × Option String)}
    (hss : (ss.map fun s => Source.relativePath m.root s.1).Nodup) {path content : String}
    (hs : (path, some content) ∈ ss) :
    ∃ k, (m.addSources ss).2.sourceIndex? path = some k ∧
      (m.addSources ss).2.sources[k]? = some ⟨Source.relativePath m.root path, content⟩ := by
  induction ss generalizing m with
  | nil => cases hs
  | cons s ss ih =>
    obtain ⟨hne, hss⟩ := List.nodup_cons.1 hss
    have hroot := (extends_addKnownSource m s).root
    rw [addSources_cons]
    rcases List.mem_cons.1 hs with rfl | hs
    · refine ⟨_, (extends_addSources _ ss).sourceIndex?_eq (sourceIndex?_addKnownSource m _),
        getElem?_addSources_of_ne (getElem?_addKnownSource m path content) fun s hs heq => ?_⟩
      rw [hroot] at heq
      exact hne (List.mem_map.2 ⟨s, hs, heq⟩)
    · have := ih (m := m.addKnownSource s) (by rwa [hroot]) hs
      rwa [hroot] at this

/-! ## Locations in merged tables -/

/-- Whether a reindexing says where the entries of one map are in the tables of another one. -/
structure Reindexing.Leads (r : Reindexing) (lower m : SourceMap) : Prop where
  sources : List.Forall₂ (fun path k => m.path? k = some (Source.relativePath m.root path))
    (lower.sources.map (·.path)) r.sources
  names : List.Forall₂ (fun n k => m.names[k]? = some n) lower.names r.names

section

variable {α β : Type} {r : α → β → Prop} {xs : List α} {ys : List β}

theorem exists_getElem?_right (h : List.Forall₂ r xs ys) {k : Nat} {x : α} (hx : xs[k]? = some x) :
    ∃ y, ys[k]? = some y ∧ r x y := by
  obtain ⟨hk, rfl⟩ := List.getElem?_eq_some_iff.1 hx
  exact ⟨_, List.getElem?_eq_getElem (h.length_eq ▸ hk), h.get hk (h.length_eq ▸ hk)⟩

theorem exists_getElem?_left (h : List.Forall₂ r xs ys) {k : Nat} {y : β} (hy : ys[k]? = some y) :
    ∃ x, xs[k]? = some x ∧ r x y := by
  obtain ⟨hk, rfl⟩ := List.getElem?_eq_some_iff.1 hy
  exact ⟨_, List.getElem?_eq_getElem (h.length_eq ▸ hk), h.get (h.length_eq ▸ hk) hk⟩

end

namespace Reindexing

variable {r : Reindexing} {lower m : SourceMap}

/-- A location with its indexes moved stands for the same place. -/
theorem Leads.exists_apply (h : r.Leads lower m) {o : Location} {x : Origin}
    (ho : lower.origin? o = some x) :
    ∃ o', r.apply o = .ok o' ∧ m.origin? o' = some (x.relativeTo m.root) := by
  obtain ⟨hsource, hline, hcolumn, hname⟩ := origin?_eq_some_iff.1 ho
  rw [path?_eq_getElem?] at hsource
  obtain ⟨source, hk, hpath⟩ := exists_getElem?_right h.sources hsource
  unfold apply
  rw [hk]
  cases hoName : o.name with
  | none =>
    rw [hoName] at hname
    exact ⟨_, rfl, origin?_eq_some_iff.2 ⟨hpath, hline, hcolumn, hname⟩⟩
  | some j =>
    rw [hoName] at hname
    obtain ⟨n, hn, hj⟩ := Option.map_eq_some_iff.1 hname.symm
    obtain ⟨k, hk, hkn⟩ := exists_getElem?_right h.names hj.symm
    simp only [hk]
    refine ⟨_, rfl, origin?_eq_some_iff.2 ⟨hpath, hline, hcolumn, ?_⟩⟩
    rw [Origin.relativeTo, hn, Option.map_some, hkn]
    rfl

theorem Leads.lt_length (h : r.Leads lower m) {j k : Nat} (hj : r.sources[j]? = some k) :
    j < lower.sources.length := by
  obtain ⟨path, hpath, -⟩ := exists_getElem?_left h.sources hj
  have := (List.getElem?_eq_some_iff.1 hpath).1
  rwa [List.length_map] at this

/-- A location whose indexes could be moved is one of the tables. -/
theorem Leads.locates_of_apply (h : r.Leads lower m) {o o' : Location} (ho : r.apply o = .ok o') :
    lower.Locates o := by
  unfold apply at ho
  split at ho
  · cases ho
  · rename_i source hsource hname
    refine ⟨h.lt_length hsource, fun k hk => ?_⟩
    rw [hname] at hk
    cases hk
  · rename_i source j hsource hname
    refine ⟨h.lt_length hsource, fun k hk => ?_⟩
    rw [hname] at hk
    cases hk
    split at ho
    · rename_i n hn
      obtain ⟨t, ht, -⟩ := exists_getElem?_left h.names hn
      exact (List.getElem?_eq_some_iff.1 ht).1
    · cases ho

end Reindexing

theorem extends_mergeTables (m lower : SourceMap) : (m.mergeTables lower).2.Extends m := by
  refine (extends_mergeNames _ lower.names).trans ?_
  rw [mergeSources_eq_addSources]
  exact extends_addSources m _

theorem leads_of_addSources (m lower : SourceMap) {ss : List (String × Option String)}
    (hss : ss.map (·.1) = lower.sources.map (·.path)) :
    Reindexing.Leads ⟨(m.addSources ss).1, ((m.addSources ss).2.mergeNames lower.names).1⟩ lower
      ((m.addSources ss).2.mergeNames lower.names).2 := by
  refine ⟨?_, forall₂_mergeNames _ _⟩
  have hextends := extends_mergeNames (m.addSources ss).2 lower.names
  rw [← hss, List.forall₂_map_left_iff]
  refine (forall₂_addSources m ss).imp fun s k hk => ?_
  exact path?_of_sourceIndex? (hextends.sourceIndex?_eq hk)

theorem leads_mergeTables (m lower : SourceMap) :
    (m.mergeTables lower).1.Leads lower (m.mergeTables lower).2 := by
  have hpaths : (lower.sources.map fun s =>
      (s.path, if s.content.isEmpty then none else some s.content)).map (·.1) =
        lower.sources.map (·.path) := by
    rw [List.map_map]
    rfl
  have := m.leads_of_addSources lower hpaths
  rwa [← mergeSources_eq_addSources] at this

end SourceMap

end ModuleWorkers

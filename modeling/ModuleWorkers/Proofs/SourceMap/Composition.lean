import ModuleWorkers.Proofs.SourceMap.Mappings
import ModuleWorkers.Proofs.SourceMap.Tables
import ModuleWorkers.SourceMap.Compose

/-!
# Composed maps lead all the way

`SourceMap.tracedOrigin?` says in texts where a location of the upper map comes from according to
both maps. Following a location by indexes leads there (`SourceMap.exists_trace_eq`), so the
composed map exists and has the segments of the upper map with these origins
(`SourceMap.compose_traces`).
-/

namespace ModuleWorkers

/-! ## Results of parts -/

theorem forall₂_of_mapM {α β ε : Type} {f : α → Except ε β} {xs : List α} {ys : List β}
    (h : xs.mapM f = .ok ys) : List.Forall₂ (fun x y => f x = .ok y) xs ys := by
  induction xs generalizing ys with
  | nil =>
    cases h
    exact .nil
  | cons x xs ih =>
    rw [List.mapM_cons] at h
    obtain ⟨y, hy, h⟩ := exists_of_bind_eq_ok h
    obtain ⟨zs, hzs, h⟩ := exists_of_bind_eq_ok h
    cases h
    exact .cons hy (ih hzs)

/-! ## Following locations -/

namespace SourceMap

/-- Where a location of the upper map comes from: what the lower map has for its place, with the
name of the upper map if the lower one has none, or else what the upper map says. -/
def tracedOrigin? (upper lower : SourceMap) (o : Location) : Option Origin :=
  match lower.closest? o.line o.column with
  | none => upper.origin? o
  | some found => do
    let x ← lower.origin? (← found.location)
    let name := x.name.or ((upper.origin? o).bind (·.name))
    return { x.relativeTo upper.root with name }

/-- Whether a segment of a map is one of the upper map that leads on through the lower map. -/
structure Traced (upper lower m : SourceMap) (s t : Mapping) : Prop where
  line : t.line = s.line
  column : t.column = s.column
  origin : t.location.map m.origin? = (s.location.bind (tracedOrigin? upper lower)).map some

section

variable {upper lower m : SourceMap} {r : Reindexing}

theorem exists_trace_eq (hlower : lower.IsIndexed) (hr : r.Leads lower m) (hm : m.Extends upper)
    {o : Location} (ho : upper.Locates o) :
    ∃ o', trace lower r o = .ok o' ∧
      o'.map m.origin? = (tracedOrigin? upper lower o).map some := by
  obtain ⟨y, hy⟩ := ho.exists_origin?
  obtain ⟨-, -, -, hyname⟩ := origin?_eq_some_iff.1 hy
  unfold trace tracedOrigin?
  cases hfound : lower.closest? o.line o.column with
  | none =>
    refine ⟨some o, rfl, ?_⟩
    simp only [hy, Option.map_some, hm.origin?_eq hy]
  | some found =>
    simp only
    cases hlocation : found.location with
    | none => exact ⟨none, rfl, rfl⟩
    | some below =>
      have hbelow := hlower found (mem_mappings_of_closest? hfound) below hlocation
      obtain ⟨x, hx⟩ := hbelow.exists_origin?
      obtain ⟨o', happly, ho'⟩ := hr.exists_apply hx
      obtain ⟨hsource, hline, hcolumn, hname⟩ := origin?_eq_some_iff.1 ho'
      rw [hm.root] at hsource
      simp only [happly]
      refine ⟨some { o' with name := o'.name.or o.name }, rfl, ?_⟩
      simp only [hx, hy, Option.bind_eq_bind, Option.bind_some, Option.map_some, Option.pure_def]
      refine congrArg some (origin?_eq_some_iff.2 ⟨hsource, hline, hcolumn, ?_⟩)
      rw [Option.map_or, Option.map_or, hname, hm.map_names hyname]
      rfl

/-- The location that a location becomes. -/
def traceLocation (lower : SourceMap) (r : Reindexing) (o : Option Location) : Option Location :=
  o.bind fun o => ((trace lower r o).toOption).getD (some o)

theorem traceSegment_eq (hlower : lower.IsIndexed) (hr : r.Leads lower m) (hm : m.Extends upper)
    {s : Segment} (hs : ∀ o ∈ s.location, upper.Locates o) :
    traceSegment lower r s = .ok { s with location := traceLocation lower r s.location } := by
  unfold traceSegment traceLocation
  cases hlocation : s.location with
  | none =>
    cases s
    cases hlocation
    rfl
  | some o =>
    obtain ⟨o', ho', -⟩ := exists_trace_eq hlower hr hm (hs o hlocation)
    simp only [Option.bind_some, ho']
    rfl

theorem map_origin?_traceLocation (hlower : lower.IsIndexed) (hr : r.Leads lower m)
    (hm : m.Extends upper) {o : Option Location} (ho : ∀ x ∈ o, upper.Locates x) :
    (traceLocation lower r o).map m.origin? = (o.bind (tracedOrigin? upper lower)).map some := by
  cases o with
  | none => rfl
  | some o =>
    obtain ⟨o', ho', horigin⟩ := exists_trace_eq hlower hr hm (ho o rfl)
    simp only [traceLocation, Option.bind_some, ho']
    exact horigin

end

theorem mapM_eq_ok {α β ε : Type} {f : α → Except ε β} {g : α → β} {xs : Array α}
    (h : ∀ x ∈ xs, f x = .ok (g x)) : xs.mapM f = .ok (xs.map g) := by
  have hlist : ∀ ys : List α, (∀ x ∈ ys, f x = .ok (g x)) → ys.mapM f = .ok (ys.map g) := by
    intro ys hys
    induction ys with
    | nil => rfl
    | cons y ys ih =>
      rw [List.mapM_cons, hys y List.mem_cons_self,
        ih fun x hx => hys x (List.mem_cons_of_mem y hx)]
      rfl
  rw [Array.mapM_eq_mapM_toList, hlist _ fun x hx => h x (Array.mem_toList_iff.1 hx)]
  change Except.ok (xs.toList.map g).toArray = _
  rw [← List.map_toArray]

/-- Only locations change, and tables grow. -/
theorem compose_eq {upper lower : SourceMap} (hupper : upper.IsIndexed) (hlower : lower.IsIndexed) :
    upper.compose lower = .ok ((upper.mergeTables lower).2.mapLocations
      (traceLocation lower (upper.mergeTables lower).1)) := by
  have hr := leads_mergeTables upper lower
  have hm := extends_mergeTables upper lower
  unfold compose mapLocations
  simp only
  have hsegments : ∀ l ∈ (upper.mergeTables lower).2.lines,
      l.segments.mapM (traceSegment lower (upper.mergeTables lower).1) =
        .ok (l.segments.map fun s =>
          { s with location := traceLocation lower (upper.mergeTables lower).1 s.location }) := by
    intro l hl
    refine mapM_eq_ok fun s hs => traceSegment_eq hlower hr hm ?_
    obtain ⟨k, hk⟩ := exists_onLine_mem_mappings (hm.lines ▸ hl) hs
    exact hupper (s.onLine k) hk
  rw [mapM_eq_ok (g := fun l => ⟨l.segments.map fun s =>
    { s with location := traceLocation lower (upper.mergeTables lower).1 s.location }⟩)]
  · rfl
  · intro l hl
    rw [hsegments l hl]
    rfl

/-- Each segment of the composed map leads on from one of the upper map. -/
theorem traced_mapLocations {upper lower : SourceMap} (hupper : upper.IsIndexed)
    (hlower : lower.IsIndexed) {s : Mapping} (hs : s ∈ upper.mappings) :
    let f := traceLocation lower (upper.mergeTables lower).1
    Traced upper lower ((upper.mergeTables lower).2.mapLocations f) s
      { s with location := f s.location } :=
  ⟨rfl, rfl, map_origin?_traceLocation hlower (leads_mergeTables upper lower)
    (extends_mergeTables upper lower) (hupper s hs)⟩

theorem bind_eq_of_map_eq {α β : Type} {x : Option α} {f : α → Option β} {y : Option β}
    (h : x.map f = y.map some) : x.bind f = y := by
  cases x with
  | none => cases y with
    | none => rfl
    | some b => cases h
  | some a => cases y with
    | none => cases h
    | some b => exact Option.some.inj h

section

variable {upper lower m : SourceMap}

/-- The composed map says of each place where it comes from according to both maps. -/
theorem originAt?_compose (hupper : upper.IsIndexed) (hlower : lower.IsIndexed)
    (h : upper.compose lower = .ok m) (line column : Nat) :
    m.originAt? line column =
      (upper.closest? line column).map fun s => s.location.bind (tracedOrigin? upper lower) := by
  cases (compose_eq hupper hlower).symm.trans h
  rw [originAt?, closest?_mapLocations, (extends_mergeTables upper lower).closest?_eq,
    Option.map_map]
  cases hs : upper.closest? line column with
  | none => rfl
  | some s =>
    have horigin := (traced_mapLocations hupper hlower (mem_mappings_of_closest? hs)).origin
    exact congrArg some (bind_eq_of_map_eq horigin)

theorem isIndexed_compose (hupper : upper.IsIndexed) (hlower : lower.IsIndexed)
    (h : upper.compose lower = .ok m) : m.IsIndexed := by
  cases (compose_eq hupper hlower).symm.trans h
  intro t ht o ho
  rw [mappings_mapLocations, (extends_mergeTables upper lower).mappings_eq] at ht
  obtain ⟨s, hs, rfl⟩ := List.mem_map.1 ht
  have horigin := (traced_mapLocations hupper hlower hs).origin
  simp only [Option.mem_def] at ho
  rw [ho, Option.map_some] at horigin
  obtain ⟨x, -, hx⟩ := Option.map_eq_some_iff.1 horigin.symm
  exact locates_of_origin? hx.symm

theorem isSorted_compose (hupper : upper.IsIndexed) (hlower : lower.IsIndexed)
    (hsorted : upper.IsSorted) (h : upper.compose lower = .ok m) : m.IsSorted := by
  cases (compose_eq hupper hlower).symm.trans h
  refine IsSorted.mapLocations (fun k => ?_) _
  rw [lineAt, (extends_mergeTables upper lower).lines]
  exact hsorted k

end

/-- If the indexes of both maps are in their tables, the composed map has the segments of the upper
map with the origins that they have according to both. Sources of the lower map that stay apart keep
their contents. -/
theorem compose_traces {upper lower : SourceMap} (hupper : upper.IsIndexed)
    (hlower : lower.IsIndexed) :
    ∃ m, upper.compose lower = .ok m ∧
      (∀ line column, Option.Rel (Traced upper lower m) (upper.closest? line column)
        (m.closest? line column)) ∧
      List.Forall₂ (Traced upper lower m) upper.mappings m.mappings ∧
      ((lower.sources.map fun s => Source.relativePath upper.root s.path).Nodup →
        ∀ s ∈ lower.sources, s.content ≠ "" →
          ∃ k, m.sourceIndex? s.path = some k ∧
            m.source k = .ok ⟨Source.relativePath upper.root s.path, s.content⟩) := by
  have hm := extends_mergeTables upper lower
  refine ⟨_, compose_eq hupper hlower, ?_, ?_, ?_⟩
  · intro line column
    rw [closest?_mapLocations, hm.closest?_eq]
    cases hs : upper.closest? line column with
    | none => exact .none
    | some s => exact .some (traced_mapLocations hupper hlower (mem_mappings_of_closest? hs))
  · rw [mappings_mapLocations, hm.mappings_eq, List.forall₂_map_right_iff, List.forall₂_same]
    exact fun s hs => traced_mapLocations hupper hlower hs
  · intro hnodup s hs hcontent
    have hmem : (s.path, some s.content) ∈ lower.sources.map fun s =>
        (s.path, if s.content.isEmpty then none else some s.content) :=
      List.mem_map.2 ⟨s, hs, by rw [if_neg (by simpa using hcontent)]⟩
    obtain ⟨k, hk, hsource⟩ := exists_content_addSources (m := upper) (by rwa [List.map_map]) hmem
    rw [← mergeSources_eq_addSources] at hk hsource
    refine ⟨k, (extends_mergeNames _ lower.names).sourceIndex?_eq hk, ?_⟩
    have hsource' : (upper.mergeTables lower).2.sources[k]? = _ :=
      (congrArg (·[k]?) (sources_mergeNames _ lower.names)).trans hsource
    rw [source, show ((upper.mergeTables lower).2.mapLocations _).sources[k]? = _ from hsource']

/-- A rewritten line of a compiled file. -/
def rewrittenLine : SourceMap where
  root := ⟨"/"⟩
  sources := [⟨"app.js", ""⟩]
  names := ["f"]
  lines := #[⟨#[⟨0, some ⟨0, 2, 0, none⟩⟩, ⟨7, some ⟨0, 2, 4, some 0⟩⟩, ⟨9, some ⟨0, 3, 0, none⟩⟩]⟩]

/-- The compiled file, whose third line comes from an authored one. -/
def compiledLine : SourceMap where
  root := ⟨"/"⟩
  sources := [⟨"/src/app.ts", "let x"⟩]
  lines := #[⟨#[]⟩, ⟨#[]⟩, ⟨#[⟨0, none⟩, ⟨2, some ⟨0, 1, 6, none⟩⟩]⟩]

/-- A place that was authored, one that was made up, and one that is left to the compiled file. -/
theorem compose_traces_lines :
    rewrittenLine.IsIndexed ∧ compiledLine.IsIndexed ∧
      ∃ m, rewrittenLine.compose compiledLine = .ok m ∧
        (m.closest? 0 8).map (fun t => (t.column, t.location.map m.origin?)) =
          some (7, some (some ⟨"src/app.ts", 1, 6, some "f"⟩)) ∧
        (m.closest? 0 1).map (fun t => (t.column, t.location.map m.origin?)) = some (0, none) ∧
        (m.closest? 0 9).map (fun t => (t.column, t.location.map m.origin?)) =
          some (9, some (some ⟨"app.js", 3, 0, none⟩)) := by
  have hupper : rewrittenLine.IsIndexed := by decide +kernel
  have hlower : compiledLine.IsIndexed := by decide +kernel
  obtain ⟨m, hm, hclosest, -, -⟩ := compose_traces hupper hlower
  have hrel : ∀ line column s, rewrittenLine.closest? line column = some s →
      (m.closest? line column).map (fun t => (t.column, t.location.map m.origin?)) =
        some (s.column, (s.location.bind (tracedOrigin? rewrittenLine compiledLine)).map some) := by
    intro line column s hs
    have := hclosest line column
    rw [hs] at this
    cases hsome : m.closest? line column with
    | none =>
      rw [hsome] at this
      cases this
    | some t =>
      rw [hsome] at this
      cases this with
      | some ht => rw [Option.map_some, ht.column, ht.origin]
  refine ⟨hupper, hlower, m, hm, ?_, ?_, ?_⟩
  · exact (hrel 0 8 ⟨0, 7, some ⟨0, 2, 4, some 0⟩⟩ (by decide +kernel)).trans (by decide +kernel)
  · exact (hrel 0 1 ⟨0, 0, some ⟨0, 2, 0, none⟩⟩ (by decide +kernel)).trans (by decide +kernel)
  · exact (hrel 0 9 ⟨0, 9, some ⟨0, 3, 0, none⟩⟩ (by decide +kernel)).trans (by decide +kernel)

end SourceMap

end ModuleWorkers

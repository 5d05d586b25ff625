import Mathlib.Data.Set.Finite.List
import ModuleWorkers.Proofs.Bundle.Resolving
import ModuleWorkers.Proofs.Path.Relative

/-!
# Trails

The paths of files that were found go up again only out of packages that are named by a scope and
`..`: each `..` stands behind `node_modules` and that scope (`IsTrail`), unless an extension has one
(`Resolver.onTrail_of_found`). So a path is no more than three times as long as the names of its
place (`IsTrail.length_le`), and there are no more than finitely many of such paths to finitely many
places (`IsTrail.finite`).
-/

namespace ModuleWorkers


/-- Names, and `..` only behind `node_modules` and the name of a scope. -/
inductive IsTrail (scopes : List Char → Prop) : List (List Char) → Prop
  | nil : IsTrail scopes []
  | name {ss : List (List Char)} {s : List Char} : IsTrail scopes ss → IsName s →
      IsTrail scopes (ss ++ [s])
  | back {ss : List (List Char)} {s : List Char} : IsTrail scopes ss → IsName s → scopes s →
      IsTrail scopes (ss ++ ["node_modules".toList, s, ['.', '.']])

namespace IsTrail

variable {scopes : List Char → Prop} {ss ns : List (List Char)} {s : List Char}

theorem append (h : IsTrail scopes ss) (hns : ∀ s ∈ ns, IsName s) : IsTrail scopes (ss ++ ns) := by
  induction ns generalizing ss with
  | nil =>
    rw [List.append_nil]
    exact h
  | cons s ns ih =>
    rw [← List.singleton_append, ← List.append_assoc]
    exact ih (h.name (hns s List.mem_cons_self)) fun t ht => hns t (List.mem_cons_of_mem s ht)

theorem of_isName (hns : ∀ s ∈ ns, IsName s) : IsTrail scopes ns := nil.append hns

theorem isName_nodeModules : IsName "node_modules".toList := by
  refine ⟨?_, ?_, ?_⟩ <;> decide

theorem dropLast (h : IsTrail scopes ss) : IsTrail scopes ss.dropLast := by
  cases h with
  | nil => exact nil
  | name h hs =>
    rw [List.dropLast_concat]
    exact h
  | back h hs _ =>
    rw [List.dropLast_append_of_ne_nil (List.cons_ne_nil _ _)]
    refine h.append fun t ht => ?_
    rcases List.mem_cons.1 ht with rfl | ht
    · exact isName_nodeModules
    · exact List.mem_singleton.1 ht ▸ hs

theorem collapse_concat (ss : List (List Char)) (hs : IsName s) :
    collapse (ss ++ [s]) = collapse ss ++ [s] := by
  rw [collapse, List.foldl_append, List.foldl_cons, List.foldl_nil, collapseStep_of_isName hs,
    List.reverse_cons, collapse]

theorem collapse_back (ss : List (List Char)) (hs : IsName s) :
    collapse (ss ++ ["node_modules".toList, s, ['.', '.']]) =
      collapse ss ++ ["node_modules".toList] := by
  rw [collapse, List.foldl_append, List.foldl_cons, List.foldl_cons,
    collapseStep_of_isName isName_nodeModules, collapseStep_of_isName hs]
  exact List.reverse_cons

/-- Each name of the place takes three pieces at most. -/
theorem length_le (h : IsTrail scopes ss) : ss.length ≤ 3 * (collapse ss).length := by
  induction h with
  | nil => exact Nat.zero_le _
  | name _ hs ih =>
    rw [collapse_concat _ hs, List.length_append, List.length_append, List.length_singleton]
    omega
  | back _ hs _ ih =>
    rw [collapse_back _ hs, List.length_append, List.length_append, List.length_singleton]
    simp only [List.length_cons, List.length_nil]
    omega

theorem mem (h : IsTrail scopes ss) : ∀ t ∈ ss, t = ['.', '.'] ∨ scopes t ∨ t ∈ collapse ss := by
  induction h with
  | nil => exact nofun
  | @name ss s _ hs ih =>
    rw [collapse_concat _ hs]
    intro t ht
    rcases List.mem_append.1 ht with ht | ht
    · exact (ih t ht).imp_right (Or.imp_right (List.mem_append_left _))
    · exact .inr (.inr (List.mem_append_right _ ht))
  | @back ss s _ hs hscope ih =>
    rw [collapse_back _ hs]
    intro t ht
    rcases List.mem_append.1 ht with ht | ht
    · exact (ih t ht).imp_right (Or.imp_right (List.mem_append_left _))
    · rcases List.mem_cons.1 ht with rfl | ht
      · exact .inr (.inr (List.mem_append_right _ (List.mem_singleton_self _)))
      · rcases List.mem_cons.1 ht with rfl | ht
        · exact .inr (.inl hscope)
        · exact .inl (List.mem_singleton.1 ht)

/-- Finitely many trails lead to finitely many places. -/
theorem finite (scopes : List (List Char)) (places : List Place) :
    {ss | IsTrail (· ∈ scopes) ss ∧ collapse ss ∈ places}.Finite := by
  let alphabet : List (List Char) := ['.', '.'] :: (scopes ++ places.flatten)
  have : Finite {s // s ∈ alphabet} := (List.finite_toSet alphabet).to_subtype
  refine ((List.finite_length_le {s // s ∈ alphabet} (3 * places.flatten.length)).image
    (List.map Subtype.val)).subset ?_
  rintro ss ⟨htrail, hplace⟩
  have hplaces := (List.sublist_flatten_of_mem hplace).length_le
  have hletter : ∀ s ∈ ss, s ∈ alphabet := by
    intro s hs
    rcases htrail.mem s hs with rfl | hscope | hs
    · exact List.mem_cons_self
    · exact List.mem_cons_of_mem _ (List.mem_append_left _ hscope)
    · exact List.mem_cons_of_mem _
        (List.mem_append_right _ (List.mem_flatten.2 ⟨_, hplace, hs⟩))
  refine ⟨ss.pmap Subtype.mk hletter, ?_, ?_⟩
  · rw [Set.mem_ofPred_eq, List.length_pmap]
    exact htrail.length_le.trans (Nat.mul_le_mul_left 3 hplaces)
  · rw [List.map_pmap]
    exact (List.pmap_eq_map hletter).trans (List.map_id ss)

end IsTrail

/-- An absolute path whose pieces are a trail. -/
structure Path.OnTrail (scopes : List Char → Prop) (p : Path) : Prop where
  isAbsolute : p.isAbsolute
  trail : IsTrail scopes p.pieces

namespace Path.OnTrail

variable {scopes : List Char → Prop} {p q : Path}

theorem of_isPlain (h : p.IsPlain) : p.OnTrail scopes :=
  ⟨h.1, .of_isName fun _ hs => isName_of_isPiece (List.mem_filter.1 hs).2 fun hup =>
    h.2 ((up_mem_components_iff h.1).2 (hup ▸ hs))⟩

/-- Without scopes, a trail never goes up. -/
theorem isPlain (h : p.OnTrail scopes) (hnone : ∀ s, ¬ scopes s) : p.IsPlain := by
  refine ⟨h.isAbsolute, fun hup => ?_⟩
  have hnames : ∀ ss, IsTrail scopes ss → ['.', '.'] ∉ ss := by
    intro ss hss
    induction hss with
    | nil => exact List.not_mem_nil
    | name _ hs ih =>
      rw [List.mem_append, not_or, List.mem_singleton]
      exact ⟨ih, Ne.symm hs.2.2⟩
    | back _ _ hscope => exact absurd hscope (hnone _)
  exact hnames _ h.trail ((up_mem_components_iff h.isAbsolute).1 hup)

theorem rooted {ns : List (List Char)} (hns : ∀ s ∈ ns, IsStep s) :
    (Path.rooted ns).OnTrail scopes := by
  refine ⟨isAbsolute_rooted ns, ?_⟩
  rw [pieces_rooted fun s hs => isWritten_of_isStep (hns s hs)]
  exact .of_isName fun s hs => (hns s hs).1

theorem parent (h : p.OnTrail scopes) (hq : p.parent? = some q) : q.OnTrail scopes := by
  obtain ⟨habsolute, hpieces⟩ := pieces_of_parent? h.isAbsolute hq
  exact ⟨habsolute, hpieces ▸ h.trail.dropLast⟩

/-- A package directory goes up again only if its name does. -/
theorem package (h : p.OnTrail scopes) {specifier name : String} {subpath : Option String}
    (hspecifier : Specifier.ofText specifier = .package name subpath)
    (hscopes : ∀ s, IsName s → segments name.toList = [s, ['.', '.']] → scopes s) :
    (p / "node_modules" / name).OnTrail scopes := by
  obtain ⟨hrelative, hup⟩ := Specifier.of_package hspecifier
  have hmodules : (⟨"node_modules"⟩ : Path).isAbsolute = false := rfl
  have hpieces : (p / "node_modules" / name).pieces =
      p.pieces ++ (["node_modules".toList] ++ pieces ⟨name⟩) := by
    rw [← List.append_assoc]
    refine (pieces_join (p / "node_modules") hrelative).trans ?_
    exact congrArg (· ++ pieces ⟨name⟩) (pieces_join p hmodules)
  refine ⟨((join_of_relative _ hrelative).1.trans (join_of_relative _ hmodules).1).trans
    h.isAbsolute, ?_⟩
  rw [hpieces]
  by_cases hmem : ['.', '.'] ∈ segments name.toList
  · obtain ⟨s, -, hs, hname⟩ := hup hmem
    have hback : pieces ⟨name⟩ = [s, ['.', '.']] := by
      change (segments name.toList).filter isPiece = _
      rw [hname, List.filter_cons_of_pos (isPiece_of_isName hs)]
      rfl
    rw [hback]
    exact h.trail.back hs (hscopes s hs hname)
  · refine h.trail.append fun s hs => ?_
    rcases List.mem_append.1 hs with hs | hs
    · exact List.mem_singleton.1 hs ▸ IsTrail.isName_nodeModules
    · obtain ⟨hs, hpiece⟩ := List.mem_filter.1 hs
      exact isName_of_isPiece hpiece fun h => hmem (h ▸ hs)

end Path.OnTrail

/-! ## Files that were found -/

namespace Resolver

variable {r : Resolver} {scopes : List Char → Prop} {stem file found : Path} {specifier : String}

/-- A path of a trail and perhaps one more name. -/
structure OpensTrail (scopes : List Char → Prop) (stem : Path) : Prop where
  isAbsolute : stem.isAbsolute
  ends : ∃ init last, segments stem.chars = init ++ [last] ∧ (last = [] ∨ IsName last) ∧
    IsTrail scopes (init.filter isPiece)

theorem opensTrail_rooted {ns : List (List Char)} (hns : ∀ s ∈ ns, IsStep s) :
    OpensTrail scopes (Path.rooted ns) := by
  refine ⟨Path.isAbsolute_rooted ns, ?_⟩
  rw [Path.segments_rooted fun s hs => Path.isWritten_of_isStep (hns s hs)]
  split
  · exact ⟨[[]], [], rfl, .inl rfl, .nil⟩
  · rename_i hne
    obtain ⟨init, last, rfl⟩ := (List.eq_nil_or_concat ns).resolve_left hne
    rw [List.concat_eq_append] at hns ⊢
    refine ⟨[] :: init, last, rfl, .inr (hns last (by simp)).1, .of_isName fun s hs => ?_⟩
    obtain ⟨hs, hpiece⟩ := List.mem_filter.1 hs
    rcases List.mem_cons.1 hs with rfl | hs
    · cases hpiece
    · exact (hns s (List.mem_append_left _ hs)).1

theorem opensTrail_index (h : stem.OnTrail scopes) : OpensTrail scopes (stem / "index") := by
  have hindex : (⟨"index"⟩ : Path).isAbsolute = false := rfl
  obtain ⟨init, hsegments, hinit⟩ := Path.exists_segments_join stem hindex
  refine ⟨(Path.join_of_relative _ hindex).1.trans h.isAbsolute, init, "index".toList, hsegments,
    .inr ?_, hinit ▸ h.trail⟩
  refine ⟨?_, ?_, ?_⟩ <;> decide

/-- What goes on with a name does not go up. -/
theorem append_ne_up {last first : List Char} (hlast : IsName last) :
    last ++ first ≠ ['.', '.'] := by
  intro h
  cases last with
  | nil => exact hlast.1 rfl
  | cons c cs =>
    obtain ⟨rfl, hcs⟩ := List.cons.inj h
    cases cs with
    | nil => exact hlast.2.1 rfl
    | cons d cs =>
      obtain ⟨hd, hnil⟩ := List.cons.inj hcs
      obtain ⟨rfl, -⟩ := List.append_eq_nil_iff.1 hnil
      exact hlast.2.2 (hd ▸ rfl)

/-- What a stem starts, an extension without `..` ends. -/
theorem OpensTrail.onTrail (h : OpensTrail scopes stem)
    (hext : ∀ e ∈ r.options.extensions, ['.', '.'] ∉ segments e.toList)
    (hfound : found = stem ∨ ∃ e ∈ r.options.extensions, found = ⟨stem.text ++ e⟩) :
    found.OnTrail scopes := by
  obtain ⟨init, last, hsegments, hlast, htrail⟩ := h.ends
  rcases hfound with rfl | ⟨e, he, rfl⟩
  · refine ⟨h.isAbsolute, ?_⟩
    rw [Path.pieces, hsegments, List.filter_append]
    refine htrail.append fun s hs => ?_
    obtain ⟨hs, hpiece⟩ := List.mem_filter.1 hs
    rw [List.mem_singleton.1 hs] at hpiece ⊢
    rcases hlast with rfl | hlast
    · cases hpiece
    · exact hlast
  · obtain ⟨first, rest, hrest, hpieces⟩ := Path.exists_pieces_extended hsegments e
    have hup := hext e he
    rw [hrest, List.mem_cons, not_or] at hup
    refine ⟨Path.isAbsolute_extended h.isAbsolute e, ?_⟩
    rw [hpieces]
    refine htrail.append fun s hs => ?_
    obtain ⟨hs, hpiece⟩ := List.mem_filter.1 hs
    refine isName_of_isPiece hpiece fun hs' => ?_
    rw [hs'] at hs
    rcases List.mem_cons.1 hs with hs | hs
    · rcases hlast with rfl | hlast
      · exact hup.1 hs
      · exact append_ne_up hlast hs.symm
    · exact hup.2 hs

/-- The files that imports mean are on trails of the scopes that they name packages by. -/
theorem onTrail_of_found (hext : ∀ e ∈ r.options.extensions, ['.', '.'] ∉ segments e.toList)
    (hroot : r.root.OnTrail scopes) (hfile : file.OnTrail scopes)
    (hscopes : ∀ s, Specifier.GoesUpFrom specifier s → scopes s)
    (h : (r.resolve specifier file).found = some found) : found.OnTrail scopes := by
  obtain ⟨stem, hstem, hprobe⟩ := exists_stem hroot.isAbsolute hfile.isAbsolute h
  refine OpensTrail.onTrail ?_ hext (probe?_eq_some hprobe).1
  cases hstem with
  | normal hns => exact opensTrail_rooted hns
  | index hns => exact opensTrail_index (.rooted hns)
  | @package name dir hspecifier hdir =>
    have hdir : dir.OnTrail scopes := by
      refine Path.forall_mem_ancestors ?_ (fun _ _ h hq => h.parent hq) dir hdir
      cases hparent : file.parent? with
      | none => exact hroot
      | some q => exact hfile.parent hparent
    exact opensTrail_index (hdir.package hspecifier fun s hs hname =>
      hscopes s ⟨name, hspecifier, hs, hname⟩)

end Resolver

end ModuleWorkers

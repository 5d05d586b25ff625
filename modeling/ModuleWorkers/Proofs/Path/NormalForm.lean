import Mathlib.Data.List.Induction
import Mathlib.Logic.Relation
import ModuleWorkers.Proofs.Path.Url

/-!
# Normal forms of addresses

Among the pieces of a path some do not matter: empty ones and `.`, a name together with the `..`
behind it, and a `..` at the root. `Shortens` is one step that leaves such pieces out. The steps may
be taken in any order: what is left once there are only names is always the same
(`collapse_eq_iff`), and tells which paths mean the same (`collapse_eq_collapse_iff`).

So the normal form of a path stands for all paths that mean the same, in front of whatever is joined
to it as well, and a relative specifier leads from all its names but the last
(`UrlPath.normalize_isCanonical`).
-/

namespace ModuleWorkers

open Relation (ReflTransGen EqvGen)

variable {ss ts ns : List (List Char)}

/-! ## Steps that shorten a path -/

/-- One step that leaves out pieces that do not matter. -/
inductive Shortens : List (List Char) → List (List Char) → Prop
  /-- An empty piece or `.` stays where it is. -/
  | skip (front back : List (List Char)) {s : List Char} (h : s = [] ∨ s = ['.']) :
    Shortens (front ++ s :: back) (front ++ back)
  /-- A name and the `..` behind it lead nowhere. -/
  | back (front rest : List (List Char)) {s : List Char} (h : IsName s) :
    Shortens (front ++ s :: ['.', '.'] :: rest) (front ++ rest)
  /-- Above the root there is nothing. -/
  | root (rest : List (List Char)) : Shortens (['.', '.'] :: rest) rest

theorem Shortens.collapse_eq (h : Shortens ss ts) : collapse ss = collapse ts := by
  cases h with
  | skip front back hs => exact collapse_append_cons front back hs
  | back front rest hs =>
    rw [collapse, collapse, List.foldl_append, List.foldl_append, List.foldl_cons,
      collapseStep_of_isName hs]
    rfl
  | root _ => rfl

/-- What stands behind does not hinder a step. -/
theorem Shortens.append (h : Shortens ss ts) (us : List (List Char)) :
    Shortens (ss ++ us) (ts ++ us) := by
  cases h with
  | skip front back hs =>
    rw [List.append_assoc, List.append_assoc]
    exact .skip front (back ++ us) hs
  | back front rest hs =>
    rw [List.append_assoc, List.append_assoc]
    exact .back front (rest ++ us) hs
  | root _ => exact .root (ts ++ us)

/-- One more piece behind names is a name too, or can be left out at once. -/
theorem isName_or_exists_shortens (h : ∀ t ∈ ns, IsName t) (s : List Char) :
    IsName s ∨ ∃ ms, Shortens (ns ++ [s]) ms ∧ ∀ t ∈ ms, IsName t := by
  by_cases hskip : s = [] ∨ s = ['.']
  · have hshortens := Shortens.skip ns [] hskip
    rw [List.append_nil] at hshortens
    exact .inr ⟨ns, hshortens, h⟩
  by_cases hup : s = ['.', '.']
  · subst hup
    right
    -- `..` goes with the last name, or is at the root if there is none
    rcases List.eq_nil_or_concat ns with rfl | ⟨front, t, rfl⟩
    · exact ⟨[], .root [], nofun⟩
    · rw [List.concat_eq_append] at h ⊢
      have hshortens := Shortens.back front [] (h t (by simp))
      rw [List.append_nil] at hshortens
      refine ⟨front, ?_, fun u hu => h u (List.mem_append_left _ hu)⟩
      rw [List.append_assoc]
      exact hshortens
  · exact .inl ⟨fun hnil => hskip (.inl hnil), fun hdot => hskip (.inr hdot), hup⟩

theorem reflTransGen_concat (h : ∀ t ∈ ns, IsName t) (s : List Char) :
    ReflTransGen Shortens (ns ++ [s]) (collapse (ns ++ [s])) := by
  rcases isName_or_exists_shortens h s with hs | ⟨ms, hshortens, hms⟩
  · rw [collapse_of_isName fun t ht => ?_]
    rcases List.mem_append.1 ht with ht | ht
    · exact h t ht
    · exact List.mem_singleton.1 ht ▸ hs
  · rw [hshortens.collapse_eq, collapse_of_isName hms]
    exact .single hshortens

/-- A path shortens to what is left of it, piece by piece from the front. -/
theorem reflTransGen_collapse (ss : List (List Char)) : ReflTransGen Shortens ss (collapse ss) := by
  induction ss using List.reverseRecOn with
  | nil => exact .refl
  | append_singleton ss s ih =>
    have hfront : ReflTransGen Shortens (ss ++ [s]) (collapse ss ++ [s]) :=
      ih.lift (· ++ [s]) fun _ _ h => h.append [s]
    rw [collapse_append]
    exact hfront.trans (reflTransGen_concat (fun t ht => mem_collapse ht) s)

theorem collapse_eq_of_eqvGen (h : EqvGen Shortens ss ts) : collapse ss = collapse ts := by
  induction h with
  | rel _ _ hstep => exact hstep.collapse_eq
  | refl _ => rfl
  | symm _ _ _ ih => exact ih.symm
  | trans _ _ _ _ _ ih₁ ih₂ => exact ih₁.trans ih₂

/-- In whatever order pieces are left out, the names that are left are the same. -/
theorem collapse_eq_iff :
    collapse ss = ns ↔ ReflTransGen Shortens ss ns ∧ ∀ s ∈ ns, IsName s := by
  constructor
  · rintro rfl
    exact ⟨reflTransGen_collapse ss, fun s hs => mem_collapse hs⟩
  · rintro ⟨hshortens, hns⟩
    have hsame := collapse_eq_of_eqvGen (EqvGen.reflTransGen_le_eqvGen _ _ _ hshortens)
    exact hsame.trans (collapse_of_isName hns)

/-- Two paths mean the same exactly if the same names are left of them. -/
theorem collapse_eq_collapse_iff : collapse ss = collapse ts ↔ EqvGen Shortens ss ts := by
  constructor
  · intro h
    have hss := EqvGen.reflTransGen_le_eqvGen _ _ _ (reflTransGen_collapse ss)
    have hts := EqvGen.reflTransGen_le_eqvGen _ _ _ (reflTransGen_collapse ts)
    exact .trans _ _ _ hss (h ▸ .symm _ _ hts)
  · exact collapse_eq_of_eqvGen

namespace UrlPath

variable {path a b : String}

/-! ## Paths in normal form -/

/-- The paths that are their own normal form are those made of names. -/
theorem normalize_eq_self_iff : normalize path = path ↔ ∃ ns, IsMadeOf path ns := by
  constructor
  · intro h
    exact ⟨_, h ▸ isMadeOf_normalize path⟩
  · rintro ⟨ns, h⟩
    refine String.toList_injective ?_
    rw [(isMadeOf_normalize path).toList_eq, h.names_eq, h.toList_eq]

/-- Two paths have the same normal form exactly if they mean the same. -/
theorem normalize_eq_normalize_iff :
    normalize a = normalize b ↔ EqvGen Shortens (segments a.toList) (segments b.toList) :=
  normalize_eq_iff_names_eq.trans collapse_eq_collapse_iff

/-- The normal form of a path stands for all paths that mean the same: it is what they all shorten
to. It can take the place of a path that another one is joined to, and a relative specifier in a path
in normal form means what it means behind the names of that path but the last. -/
theorem normalize_isCanonical :
    (∀ path, ∃ ns, IsMadeOf (normalize path) ns ∧
      ReflTransGen Shortens (segments path.toList) ns ∧ (normalize path = "/" ↔ ns = [])) ∧
    (∀ a b, normalize a = normalize b ↔
      EqvGen Shortens (segments a.toList) (segments b.toList)) ∧
    (∀ path, normalize (normalize path) = normalize path) ∧
    (∀ a b, normalize (a ++ "/" ++ b) = normalize (normalize a ++ "/" ++ b)) ∧
    ∀ servedPath specifier, isRelative specifier = true →
      ∃ ns ms directory path, IsMadeOf (normalize servedPath) ns ∧
        IsMadeOf directory ns.dropLast ∧ IsMadeOf path ms ∧
        resolve? (normalize servedPath) specifier = some path ∧
        path = normalize (directory ++ "/" ++ specifier) := by
  refine ⟨fun path => ?_, fun a b => normalize_eq_normalize_iff, normalize_normalize,
    normalize_join, fun servedPath specifier h => ?_⟩
  · have hmade := isMadeOf_normalize path
    exact ⟨_, hmade, reflTransGen_collapse _, hmade.eq_slash_iff⟩
  · have hresolve : resolve? (normalize servedPath) specifier =
        some (normalize (dirname (normalize servedPath) ++ "/" ++ specifier)) := if_pos h
    exact ⟨_, _, _, _, isMadeOf_normalize servedPath, isMadeOf_dirname_normalize servedPath,
      isMadeOf_normalize _, hresolve, rfl⟩

/-- A specifier that climbs above the root means a file at the root. -/
theorem normalize_isCanonical_climbing :
    isRelative "../../../w.js" = true ∧
    (∃ ns ms directory path, IsMadeOf (normalize "/src/./nested//a.js") ns ∧
      IsMadeOf directory ns.dropLast ∧ IsMadeOf path ms ∧
      resolve? (normalize "/src/./nested//a.js") "../../../w.js" = some path ∧
      path = normalize (directory ++ "/" ++ "../../../w.js")) ∧
    resolve? (normalize "/src/./nested//a.js") "../../../w.js" = some "/w.js" := by
  have hrelative : isRelative "../../../w.js" = true := by decide +kernel
  exact ⟨hrelative, normalize_isCanonical.2.2.2.2 _ _ hrelative, by decide +kernel⟩

end UrlPath

end ModuleWorkers

import Mathlib.Data.List.Induction
import ModuleWorkers.Proofs.Path.Address

/-!
# Pieces of absolute paths

An absolute path is its pieces: names and `..`, which are what its components are made of and what
its place is collapsed from. A path that is joined to another one puts its pieces behind the others
(`Path.pieces_join`), the directory of a path lacks its last piece (`Path.pieces_of_parent?`), and an
extension goes on with the last piece (`Path.pieces_extended`).
-/

namespace ModuleWorkers

/-- Texts put together share the piece where they meet. -/
theorem segments_append {as bs x y : List Char} {init ys : List (List Char)}
    (has : segments as = init ++ [x]) (hbs : segments bs = y :: ys) :
    segments (as ++ bs) = init ++ (x ++ y) :: ys := by
  induction as generalizing init x with
  | nil =>
    have hempty : [] ++ [[]] = init ++ [x] := has
    obtain ⟨rfl, hx⟩ := List.append_inj' hempty rfl
    cases hx
    exact hbs
  | cons c as ih =>
    rw [segments] at has
    rw [List.cons_append, segments]
    split at has
    · rename_i hc
      rw [if_pos hc]
      cases init with
      | nil => exact absurd (List.cons.inj has).2 (segments_ne_nil as)
      | cons s init =>
        obtain ⟨rfl, hrest⟩ := List.cons.inj has
        rw [ih hrest]
        rfl
    · rename_i hc
      rw [if_neg hc]
      split at has
      · rename_i hnil
        exact absurd hnil (segments_ne_nil as)
      · rename_i s ss hsegments
        cases init with
        | nil =>
          obtain ⟨rfl, rfl⟩ := List.cons.inj has
          have hrest : segments as = [] ++ [s] := hsegments
          rw [ih hrest]
          rfl
        | cons t init =>
          obtain ⟨rfl, rfl⟩ := List.cons.inj has
          have hrest : segments as = (s :: init) ++ [x] := hsegments
          rw [ih hrest]
          rfl

/-- Only pieces that count matter to what is left of them. -/
theorem collapse_filter_isPiece (ss : List (List Char)) :
    collapse (ss.filter isPiece) = collapse ss := by
  have hfoldl : ∀ before, (ss.filter isPiece).foldl collapseStep before =
      ss.foldl collapseStep before := by
    induction ss with
    | nil => exact fun _ => rfl
    | cons s ss ih =>
      intro before
      rw [List.filter_cons, List.foldl_cons]
      split
      · rw [List.foldl_cons, ih]
      · rename_i hs
        have hskip : collapseStep before s = before :=
          if_pos (by simpa [isPiece, or_iff_not_imp_left] using hs)
        rw [hskip, ih]
  rw [collapse, collapse, hfoldl]

theorem isPiece_of_isName {s : List Char} (h : IsName s) : isPiece s = true := by
  simp [isPiece, h.1, h.2.1]

theorem isName_of_isPiece {s : List Char} (h : isPiece s = true) (hup : s ≠ ['.', '.']) :
    IsName s := by
  obtain ⟨hempty, hhere⟩ : s ≠ [] ∧ s ≠ ['.'] := by simpa [isPiece] using h
  exact ⟨hempty, hhere, hup⟩

namespace Path

variable {p q r : Path} {ns ms : List (List Char)}

/-- The names and `..` that a path is written with. -/
def pieces (p : Path) : List (List Char) := (segments p.chars).filter isPiece

theorem components_eq_pieces (h : p.isAbsolute) :
    p.components = .root :: p.pieces.map component :=
  components_of_isAbsolute h

theorem beq_iff_pieces (hp : p.isAbsolute) (hq : q.isAbsolute) :
    (p == q) = true ↔ p.pieces = q.pieces := by
  rw [beq_iff, components_eq_pieces hp, components_eq_pieces hq, List.cons.injEq, eq_self, true_and]
  constructor
  · intro h
    refine List.map_injective_iff.2 (fun s t hst => ?_) h
    rw [← chars_component s, hst, chars_component]
  · intro h
    rw [h]

theorem place_eq_collapse (p : Path) : p.place = collapse p.pieces :=
  (collapse_filter_isPiece _).symm

theorem up_mem_components_iff (h : p.isAbsolute) :
    .up ∈ p.components ↔ ['.', '.'] ∈ p.pieces := by
  rw [components_eq_pieces h]
  constructor
  · intro hup
    obtain ⟨s, hs, hcomponent⟩ := List.mem_map.1 ((List.mem_cons.1 hup).resolve_left nofun)
    rw [← chars_component s, hcomponent] at hs
    exact hs
  · exact fun hup => List.mem_cons_of_mem _ (List.mem_map.2 ⟨_, hup, rfl⟩)

/-! ## Paths as they are written -/

/-- A name or `..`. -/
def IsWritten (s : List Char) : Prop := isPiece s = true ∧ '/' ∉ s

instance (s : List Char) : Decidable (IsWritten s) := inferInstanceAs (Decidable (_ ∧ _))

theorem isWritten_of_isStep {s : List Char} (h : IsStep s) : IsWritten s :=
  ⟨isPiece_of_isName h.1, h.2⟩

theorem segments_rooted (h : ∀ s ∈ ns, IsWritten s) :
    segments (rooted ns).chars = if ns = [] then [[], []] else [] :: ns := by
  rw [chars_rooted, segments_slash]
  split
  · rename_i hns
    subst hns
    rfl
  · rename_i hns
    rw [segments_joined hns fun s hs => (h s hs).2]

theorem pieces_rooted (h : ∀ s ∈ ns, IsWritten s) : (rooted ns).pieces = ns := by
  rw [pieces, segments_rooted h]
  split
  · rename_i hns
    subst hns
    rfl
  · exact List.filter_eq_self.2 fun s hs => (h s hs).1

theorem joined_cons (s : List Char) (hns : ns ≠ []) :
    joined (s :: ns) = s ++ '/' :: joined ns := by
  rw [joined, List.intercalate_cons_of_ne_nil hns, List.append_assoc]
  rfl

theorem joined_append (hns : ns ≠ []) (hms : ms ≠ []) :
    joined (ns ++ ms) = joined ns ++ '/' :: joined ms := by
  induction ns with
  | nil => exact absurd rfl hns
  | cons s ns ih =>
    by_cases hnil : ns = []
    · subst hnil
      rw [List.singleton_append, joined_cons s hms, joined, joined, List.intercalate_singleton]
    · have hne : ns ++ ms ≠ [] := List.append_ne_nil_of_left_ne_nil hnil ms
      rw [List.cons_append, joined_cons s hne, joined_cons s hnil, ih hnil, List.append_assoc]
      rfl

theorem text_rooted_append (hns : ns ≠ []) (hms : ms ≠ []) :
    ⟨(rooted ns).text ++ String.ofList ('/' :: joined ms)⟩ = rooted (ns ++ ms) := by
  refine congrArg Path.mk (String.toList_injective ?_)
  have hchars := chars_rooted ns
  rw [chars] at hchars
  rw [String.toList_append, String.toList_ofList, hchars, String.toList_ofList,
    joined_append hns hms]
  rfl

theorem endsWith_rooted (h : ∀ s ∈ ns, IsWritten s) (hns : ns ≠ []) :
    (rooted ns).text.endsWith "/" = false := by
  rw [Bool.eq_false_iff]
  intro hslash
  -- a slash at the end would make the last piece empty
  obtain ⟨cs, hcs⟩ := exists_chars_eq_of_endsWith hslash
  have hsegments := segments_rooted h
  rw [hcs, segments_append_slash, if_neg hns] at hsegments
  have hlast := congrArg List.getLast? hsegments
  have hempty : segments [] = [[]] := rfl
  rw [hempty, List.getLast?_concat, List.getLast?_cons_of_ne_nil hns] at hlast
  exact absurd (h [] (List.mem_of_getLast? hlast.symm)).1 (by decide)

theorem div_rooted {name : String} (h : ∀ s ∈ ns, IsWritten s) (hname : IsWritten name.toList) :
    rooted ns / name = rooted (ns ++ [name.toList]) := by
  have hrelative : (⟨name⟩ : Path).isAbsolute = false := by
    rw [isAbsolute, Bool.eq_false_iff]
    intro hhead
    exact hname.2 (List.mem_of_mem_head? (beq_iff_eq.1 hhead))
  change (rooted ns).join ⟨name⟩ = _
  rw [join, hrelative, if_neg Bool.false_ne_true]
  by_cases hns : ns = []
  · subst hns
    have hslash : (rooted []).text.endsWith "/" = true := by decide +kernel
    rw [hslash, Bool.or_true, if_pos rfl]
    exact congrArg Path.mk (String.toList_injective (by simp [rooted, ofChars, joined]))
  · have hempty : (rooted ns).text.isEmpty = false := by
      rw [Bool.eq_false_iff, String.isEmpty_iff.ne]
      intro hnil
      have hchars := chars_rooted ns
      rw [chars, hnil] at hchars
      cases hchars
    rw [hempty, endsWith_rooted h hns, Bool.or_false, if_neg Bool.false_ne_true,
      ← text_rooted_append hns (List.cons_ne_nil _ [])]
    refine congrArg Path.mk (String.toList_injective ?_)
    simp [joined]

/-! ## Joined paths -/

theorem exists_segments_join (p : Path) (hr : r.isAbsolute = false) :
    ∃ init, segments (p.join r).chars = init ++ segments r.chars ∧
      init.filter isPiece = p.pieces := by
  unfold join pieces
  rw [hr, if_neg Bool.false_ne_true]
  split
  · rename_i hempty
    have hchars : (⟨p.text ++ r.text⟩ : Path).chars = p.chars ++ r.chars := String.toList_append
    rw [hchars]
    rcases Bool.or_eq_true_iff.1 hempty with hempty | hslash
    · have hp : p.chars = [] := by rw [chars, String.isEmpty_iff.1 hempty]; rfl
      rw [hp]
      exact ⟨[], rfl, rfl⟩
    · obtain ⟨front, hfront⟩ := exists_chars_eq_of_endsWith hslash
      rw [hfront, List.append_assoc, List.singleton_append, segments_append_slash,
        segments_append_slash]
      refine ⟨_, rfl, ?_⟩
      rw [List.filter_append]
      exact (List.append_nil _).symm
  · have hchars : (⟨p.text ++ "/" ++ r.text⟩ : Path).chars = p.chars ++ '/' :: r.chars := by
      simp [chars]
    rw [hchars, segments_append_slash]
    exact ⟨_, rfl, rfl⟩

theorem pieces_join (p : Path) (hr : r.isAbsolute = false) :
    (p.join r).pieces = p.pieces ++ r.pieces := by
  obtain ⟨init, hsegments, hinit⟩ := exists_segments_join p hr
  rw [pieces, hsegments, List.filter_append, hinit]
  rfl

/-! ## Directories above -/

/-- The numbers of the pieces that count, counted from a number on. -/
def countedFrom (n : Nat) (ss : List (List Char)) : List Nat :=
  (ss.zipIdx n).filterMap fun (s, k) => if counts k s then some k else none

variable {n k : Nat} {ss : List (List Char)} {ks : List Nat}

theorem countedFrom_concat (hn : 0 < n) (ss : List (List Char)) (s : List Char) :
    countedFrom n (ss ++ [s]) =
      countedFrom n ss ++ if isPiece s then [n + ss.length] else [] := by
  have hcounts : counts (n + ss.length) s = isPiece s := by
    have hzero : (n + ss.length == 0) = false := beq_eq_false_iff_ne.2 (by omega)
    rw [counts, hzero, Bool.or_false, isPiece]
  rw [countedFrom, List.zipIdx_append, List.filterMap_append]
  refine congrArg _ ?_
  rw [List.zipIdx_singleton, List.filterMap_cons, List.filterMap_nil]
  simp only [hcounts]
  cases isPiece s <;> rfl

theorem length_countedFrom (hn : 0 < n) (ss : List (List Char)) :
    (countedFrom n ss).length = (ss.filter isPiece).length := by
  induction ss using List.reverseRecOn with
  | nil => rfl
  | append_singleton ss s ih =>
    rw [countedFrom_concat hn, List.length_append, ih, List.filter_append, List.length_append,
      List.filter_cons, List.filter_nil]
    split <;> rfl

/-- Up to the last piece that counts there are all that count. -/
theorem filter_take_last (hn : 0 < n) (h : (countedFrom n ss).reverse = k :: ks) :
    n ≤ k ∧ k < n + ss.length ∧ (ss.take (k + 1 - n)).filter isPiece = ss.filter isPiece := by
  induction ss using List.reverseRecOn with
  | nil => cases h
  | append_singleton ss s ih =>
    rw [countedFrom_concat hn] at h
    split at h
    · rw [List.reverse_append] at h
      obtain ⟨rfl, -⟩ := List.cons.inj h
      refine ⟨by omega, by simp, ?_⟩
      rw [List.take_of_length_le (by simp; omega)]
    · rename_i hs
      rw [List.append_nil] at h
      obtain ⟨hle, hlt, htake⟩ := ih h
      refine ⟨hle, by simp; omega, ?_⟩
      rw [List.take_append_of_le_length (by omega), htake, List.filter_append,
        List.filter_cons_of_neg hs, List.filter_nil, List.append_nil]

/-- Up to the one before there are all but the last. -/
theorem filter_take_before_last {j : Nat} (hn : 0 < n)
    (h : (countedFrom n ss).reverse = j :: k :: ks) : n ≤ k ∧ k < n + ss.length ∧
      (ss.take (k + 1 - n)).filter isPiece = (ss.filter isPiece).dropLast := by
  induction ss using List.reverseRecOn with
  | nil => cases h
  | append_singleton ss s ih =>
    rw [countedFrom_concat hn] at h
    split at h
    · rename_i hs
      rw [List.reverse_append] at h
      obtain ⟨hle, hlt, htake⟩ := filter_take_last hn (List.cons.inj h).2
      refine ⟨hle, by simp; omega, ?_⟩
      rw [List.take_append_of_le_length (by omega), htake, List.filter_append,
        List.filter_cons_of_pos hs, List.filter_nil, List.dropLast_concat]
    · rename_i hs
      rw [List.append_nil] at h
      obtain ⟨hle, hlt, htake⟩ := ih h
      refine ⟨hle, by simp; omega, ?_⟩
      rw [List.take_append_of_le_length (by omega), htake, List.filter_append,
        List.filter_cons_of_neg hs, List.filter_nil, List.append_nil]

/-- The first pieces of an absolute path, put together again. -/
theorem pieces_taken (cs : List Char) (hk : 0 < k) :
    (ofChars (joined (([] :: segments cs).take (k + 1)))).isAbsolute ∧
      (ofChars (joined (([] :: segments cs).take (k + 1)))).pieces =
        ((segments cs).take k).filter isPiece := by
  obtain ⟨s, ss, hss⟩ := List.exists_cons_of_ne_nil (segments_ne_nil cs)
  have hne : (segments cs).take k ≠ [] := by
    rw [hss, ← Nat.sub_add_cancel hk]
    exact List.cons_ne_nil _ _
  have hchars : (ofChars (joined (([] :: segments cs).take (k + 1)))).chars =
      '/' :: joined ((segments cs).take k) := by
    rw [chars_ofChars, List.take_succ_cons, joined_cons [] hne]
    rfl
  refine ⟨by rw [isAbsolute, hchars]; rfl, ?_⟩
  rw [pieces, hchars, segments_slash, segments_joined hne fun s hs =>
    slash_not_mem_of_mem_segments (List.mem_of_mem_take hs)]
  rfl

/-- The directory of an absolute path is made of all pieces but the last. -/
theorem pieces_of_parent? (hp : p.isAbsolute) (h : p.parent? = some q) :
    q.isAbsolute ∧ q.pieces = p.pieces.dropLast := by
  obtain ⟨cs, hcs⟩ := exists_chars_eq_of_isAbsolute hp
  have hsegments : segments p.chars = [] :: segments cs := by rw [hcs, segments_slash]
  have hcounting : p.counting = (countedFrom 1 (segments cs)).reverse := by
    rw [counting, hsegments]
    rfl
  have hpieces : p.pieces = (segments cs).filter isPiece := by
    rw [pieces, hsegments]
    rfl
  unfold parent? at h
  rw [hcounting] at h
  split at h
  · cases h
  · rename_i hone
    rw [hp] at h
    cases h
    have hlength := length_countedFrom Nat.one_pos (segments cs)
    rw [← List.length_reverse, hone, ← hpieces] at hlength
    refine ⟨rfl, (List.eq_nil_of_length_eq_zero ?_).symm⟩
    rw [List.length_dropLast, ← hlength]
    rfl
  · rename_i j k ks hmore
    cases h
    obtain ⟨hk, hlt, htake⟩ := filter_take_before_last Nat.one_pos hmore
    obtain ⟨habsolute, htaken⟩ := pieces_taken cs hk
    rw [hsegments, hpieces]
    exact ⟨habsolute, htaken.trans htake⟩

theorem countedFrom_of_isWritten (hn : 0 < n) (h : ∀ s ∈ ss, IsWritten s) :
    countedFrom n ss = List.range' n ss.length := by
  induction ss using List.reverseRecOn with
  | nil => rfl
  | append_singleton ss s ih =>
    rw [countedFrom_concat hn, if_pos (h s (by simp)).1,
      ih fun t ht => h t (List.mem_append_left _ ht), List.length_append, List.length_singleton,
      List.range'_concat, Nat.one_mul]

theorem parent?_rooted {s : List Char} (h : ∀ t ∈ ns ++ [s], IsWritten t) :
    (rooted (ns ++ [s])).parent? = some (rooted ns) := by
  have hsegments := segments_rooted h
  rw [if_neg (by simp)] at hsegments
  have hcounting : (rooted (ns ++ [s])).counting =
      (1 + ns.length) :: (List.range' 1 ns.length).reverse := by
    have hcounted : (rooted (ns ++ [s])).counting = (countedFrom 1 (ns ++ [s])).reverse := by
      rw [counting, hsegments]
      rfl
    rw [hcounted, countedFrom_of_isWritten Nat.one_pos h, List.length_append,
      List.length_singleton, List.range'_concat, List.reverse_append, Nat.one_mul]
    rfl
  rw [parent?, hcounting]
  rcases List.eq_nil_or_concat ns with rfl | ⟨init, t, rfl⟩
  · rw [isAbsolute_rooted]
    rfl
  · rw [List.concat_eq_append] at h hsegments ⊢
    rw [List.length_append, List.length_singleton, List.range'_concat, List.reverse_append]
    simp only [List.reverse_singleton, List.singleton_append]
    rw [hsegments, Nat.one_mul, Nat.add_comm 1, List.take_succ_cons,
      List.take_left' (by simp)]
    rw [joined, List.intercalate_cons_of_ne_nil (by simp)]
    rfl

/-! ## Extensions -/

variable {init : List (List Char)} {last : List Char}

theorem isAbsolute_extended (hp : p.isAbsolute) (e : String) :
    isAbsolute ⟨p.text ++ e⟩ := by
  obtain ⟨cs, hcs⟩ := exists_chars_eq_of_isAbsolute hp
  have hchars : (⟨p.text ++ e⟩ : Path).chars = p.chars ++ e.toList := String.toList_append
  rw [isAbsolute, hchars, hcs]
  rfl

theorem exists_pieces_extended (hp : segments p.chars = init ++ [last]) (e : String) :
    ∃ first rest, segments e.toList = first :: rest ∧ pieces ⟨p.text ++ e⟩ =
      init.filter isPiece ++ ((last ++ first) :: rest).filter isPiece := by
  obtain ⟨first, rest, he⟩ := List.exists_cons_of_ne_nil (segments_ne_nil e.toList)
  have hchars : (⟨p.text ++ e⟩ : Path).chars = p.chars ++ e.toList := String.toList_append
  refine ⟨first, rest, he, ?_⟩
  rw [pieces, hchars, segments_append hp he, List.filter_append]

end Path

end ModuleWorkers

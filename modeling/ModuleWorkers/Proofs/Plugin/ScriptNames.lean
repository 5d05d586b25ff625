import ModuleWorkers.Proofs.Plugin.BundleFiles

/-!
# Scripts that share a name

The name of a script to load later is made of the stem of its module and of half a hash of a text:
the ids and the codes of its modules, with nothing between them (`Bundler.scriptText`). So two
scripts of a bundle share a name exactly if their stems and these halves are the same
(`Bundler.name_eq_iff_clash`). That takes no collision of hashes: `a.js` without a code and `a.j`
with the code `s` make the same text (`Bundler.exists_bundle_shared_name`). A bundle without such
scripts is served whole when its build ends (`Bundler.nodup_names_iff`).
-/

namespace ModuleWorkers

open Script (Dependency DependencyKind Target)

theorem nodup_eraseDups {α : Type} [BEq α] [LawfulBEq α] (as : List α) : as.eraseDups.Nodup := by
  match as with
  | [] => simp
  | a :: as =>
    have hlength : (as.filter fun b => !b == a).length ≤ as.length := List.length_filter_le _ _
    rw [List.eraseDups_cons, List.nodup_cons, List.mem_eraseDups]
    exact ⟨by simp, nodup_eraseDups _⟩
termination_by as.length
decreasing_by simpa [Nat.lt_succ_iff] using hlength

/-! ## Digits of a hash -/

namespace Xxh3

theorem digitChar_mod_eq_iff {m n : Nat} :
    Nat.digitChar (m % 16) = Nat.digitChar (n % 16) ↔ m % 16 = n % 16 := by
  have hall : ∀ i < 16, ∀ j < 16, Nat.digitChar i = Nat.digitChar j → i = j := by decide
  exact ⟨hall _ (Nat.mod_lt m (by decide)) _ (Nat.mod_lt n (by decide)), congrArg _⟩

/-- The first digits of two numbers of 64 bits are the same if the numbers are the same down to
these digits. -/
theorem map_digitChar_eq_iff {m n : Nat} (hm : m < UInt64.size) (hn : n < UInt64.size)
    {count : Nat} (hcount : count ≤ 16) :
    ((List.range count).map fun k => Nat.digitChar (m >>> (4 * (15 - k)) % 16)) =
        (List.range count).map (fun k => Nat.digitChar (n >>> (4 * (15 - k)) % 16)) ↔
      m >>> (4 * (16 - count)) = n >>> (4 * (16 - count)) := by
  induction count with
  | zero =>
    rw [Nat.shiftRight_eq_zero m 64 hm, Nat.shiftRight_eq_zero n 64 hn]
    exact iff_of_true rfl rfl
  | succ count ih =>
    have hstep : 4 * (16 - count) = 4 * (15 - count) + 4 := by omega
    have hlast : 16 - (count + 1) = 15 - count := by omega
    rw [List.range_succ, List.map_append, List.map_append, List.map_singleton, List.map_singleton,
      List.append_eq_append_iff_of_size_eq_left (by simp), ih (Nat.le_of_succ_le hcount), hstep,
      hlast, Nat.shiftRight_add, Nat.shiftRight_add, Nat.shiftRight_eq_div_pow _ 4,
      Nat.shiftRight_eq_div_pow _ 4, List.singleton_inj, digitChar_mod_eq_iff]
    constructor
    · rintro ⟨hfront, hdigit⟩
      omega
    · intro h
      rw [h]
      exact ⟨rfl, rfl⟩

/-- The first eight of the sixteen digits are the upper half of a hash. -/
theorem digits_eight_eq_iff (b b' : ByteArray) :
    digits 8 b = digits 8 b' ↔ hash b >>> 32 = hash b' >>> 32 := by
  have hcount : 8 ≤ 16 := by decide
  rw [← UInt64.toNat_inj, UInt64.toNat_shiftRight, UInt64.toNat_shiftRight]
  exact map_digitChar_eq_iff (hash b).toNat_lt_size (hash b').toNat_lt_size hcount

end Xxh3

namespace Bundler

variable {b : Bundler} {request : BundleRequest} {g : ModuleGraph} {out : BundleOutput}
  {s t : LaterScript} {m : BundledModule} {d : Dependency}

/-! ## When scripts share a name -/

/-- The text that is hashed for the name of a script: the ids and the codes of its modules. -/
def scriptText (g : ModuleGraph) (modules : List Nat) : String :=
  String.join (modules.flatMap fun k => (g.modules[k]?.map fun m => [m.id, m.code]).getD [])

/-- The name of a module in the names of scripts. -/
def scriptStem (g : ModuleGraph) (target : Nat) : String :=
  (g.modules[target]?.bind (·.path.stem?)).getD "chunk"

/-- Whether the names of two scripts are told by the same: the stem and the upper half of the
hash. -/
def Clash (g : ModuleGraph) (s t : LaterScript) : Prop :=
  scriptStem g s.target = scriptStem g t.target ∧
    Xxh3.hash (scriptText g s.modules).toUTF8 >>> 32 =
      Xxh3.hash (scriptText g t.modules).toUTF8 >>> 32

theorem append_scriptText (g : ModuleGraph) (before : String) (modules : List Nat) :
    before ++ scriptText g modules = modules.foldl (fun text k =>
      text ++ String.join ((g.modules[k]?.map fun m => [m.id, m.code]).getD [])) before := by
  induction modules generalizing before with
  | nil => exact String.append_empty
  | cons k ks ih =>
    rw [List.foldl_cons, ← ih, scriptText, scriptText, List.flatMap_cons, String.join_append,
      String.append_assoc]

theorem scriptName_eq (g : ModuleGraph) (target : Nat) (modules : List Nat) :
    scriptName g target modules = scriptStem g target ++ "-" ++
      .ofList (Xxh3.digits 8 (scriptText g modules).toUTF8) ++ ".js" := by
  refine congrArg (fun bytes => scriptStem g target ++ "-" ++
    String.ofList (Xxh3.digits 8 bytes) ++ ".js") ?_
  have hempty : ByteArray.empty = "".toUTF8 := rfl
  rw [hempty, ← @String.empty_append (scriptText g modules), append_scriptText]
  refine List.foldl_hom String.toUTF8 fun text k => ?_
  cases g.modules[k]? with
  | none => simp
  | some m => simp [ByteArray.append_assoc]

theorem scriptName_eq_iff {target target' : Nat} {modules modules' : List Nat} :
    scriptName g target modules = scriptName g target' modules' ↔
      scriptStem g target = scriptStem g target' ∧
        Xxh3.digits 8 (scriptText g modules).toUTF8 =
          Xxh3.digits 8 (scriptText g modules').toUTF8 := by
  rw [scriptName_eq, scriptName_eq]
  constructor
  · intro h
    have hlist := congrArg String.toList h
    simp only [String.toList_append, String.toList_ofList] at hlist
    obtain ⟨hstem, hdigits⟩ :=
      List.append_inj' (List.append_cancel_right hlist) (by simp [Xxh3.digits])
    exact ⟨String.toList_injective (List.append_cancel_right hstem), hdigits⟩
  · rintro ⟨hstem, hdigits⟩
    rw [hstem, hdigits]

theorem name_eq_iff_clash (hs : s ∈ laterScripts g) (ht : t ∈ laterScripts g) :
    s.name = t.name ↔ Clash g s t := by
  rw [(mem_laterScripts_iff.1 hs).2.2.2, (mem_laterScripts_iff.1 ht).2.2.2, scriptName_eq_iff,
    Xxh3.digits_eight_eq_iff]
  rfl

/-- No two scripts are for the same module. -/
theorem nodup_targets (g : ModuleGraph) : ((laterScripts g).map (·.target)).Nodup := by
  unfold laterScripts ModuleGraph.dynamicTargets
  rw [List.map_map]
  exact ((nodup_eraseDups _).filter _).map Function.injective_id

theorem Makes.names_eq (h : b.Makes request g out) :
    out.files.map (·.name) = (laterScripts g).map (·.name) := by
  rw [← List.forall₂_eq_eq_eq, List.forall₂_map_left_iff, List.forall₂_map_right_iff]
  refine h.files.flip.imp ?_
  rintro f s ⟨p, rfl⟩
  rfl

/-- The scripts of a bundle have different names exactly if no two of them clash. -/
theorem Makes.nodup_iff (h : b.Makes request g out) : (out.files.map (·.name)).Nodup ↔
    ∀ s ∈ laterScripts g, ∀ t ∈ laterScripts g, Clash g s t → s.target = t.target := by
  have htargets := List.inj_on_of_nodup_map (nodup_targets g)
  rw [h.names_eq, List.nodup_map_iff_inj_on (nodup_targets g).of_map]
  refine forall₄_congr fun s hs t ht => ?_
  rw [name_eq_iff_clash hs ht]
  exact imp_congr_right fun _ => ⟨congrArg _, htargets hs ht⟩

/-! ## Bundles that are served whole -/

/-- Whether an import finds what it means where files are served: nowhere but in the first script if
that has it, and else in the script that it loads. -/
def FindsTarget (b : Bundler) (request : BundleRequest) (g : ModuleGraph) (options : PluginOptions)
    (directory : String) (served : VirtualFiles) (m : BundledModule) (d : Dependency)
    (t : Target) : Prop :=
  ∃ k n, (b.loader request).Means g m.path d k ∧ g.modules[k]? = some n ∧ t.id = n.id ∧
    (t.chunk = none ∧ k ∈ mainModules g ∨
      ∃ name modules code map, t.chunk = some name ∧ k ∈ modules ∧
        b.Defines g (b.loader request).mapDir modules none code ∧
        served.get? ((OutputFile.script name code map).path directory) =
          some ⟨(OutputFile.script name code map).path directory,
            (OutputFile.script name code map).content options directory, true⟩)

/-- Whether a bundle is served whole when its build for a worker ends: each script under its name,
and for each import while a worker runs what it means. -/
def IsServedWhole (b : Bundler) (request : BundleRequest) (g : ModuleGraph) (out : BundleOutput) :
    Prop :=
  ∀ (ε : Type) (options : PluginOptions) (s : PluginState) (path : String),
    (s.registry.get? path).isSome → UrlPath.normalize path = path →
    let directory := UrlPath.dirname path
    let served := (s.finishBuild (ε := ε) options path (.ok out)).2.virtualFiles
    (∀ f ∈ out.files, served.get? (f.path directory) =
      some ⟨f.path directory, f.content options directory, true⟩) ∧
    ∀ (j : Nat) (m : BundledModule), g.modules[j]? = some m → ∃ f : Dependency → Target,
      importTargets g (laterScripts g) m = m.imports.map f ∧
        ∀ d ∈ m.imports, d.kind = .dynamic →
          b.FindsTarget request g options directory served m d (f d)

theorem Makes.isServedWhole (h : b.Makes request g out) (hnames : (out.files.map (·.name)).Nodup) :
    b.IsServedWhole request g out := by
  intro ε options st path he hpath
  have hserved : ∀ f ∈ out.files,
      (st.finishBuild (ε := ε) options path (.ok out)).2.virtualFiles.get?
          (f.path (UrlPath.dirname path)) =
        some ⟨f.path (UrlPath.dirname path), f.content options (UrlPath.dirname path), true⟩ := by
    intro f hf
    obtain ⟨code, map, hscript, hget⟩ :=
      PluginState.get?_script_finishBuild (ε := ε) h options he hpath hf
    have hsame : OutputFile.script f.name code (some map) = f :=
      List.inj_on_of_nodup_map hnames hscript hf rfl
    rw [hget, ← hsame]
    rfl
  refine ⟨hserved, fun j m hm => ?_⟩
  have hg := ModuleLoader.loaded_of_load h.load
  obtain ⟨f, himports, hf⟩ := exists_importTargets_eq hg hm
  refine ⟨f, himports, fun d hd hdynamic => ?_⟩
  obtain ⟨k, n, hmeans, hn, hid, -, hmain, hchunk⟩ := hf d hd
  refine ⟨k, n, hmeans, hn, hid, ?_⟩
  cases hname : (f d).chunk with
  | none => exact .inl ⟨rfl, (hmain hdynamic).1 hname⟩
  | some name =>
    obtain ⟨s, hs, rfl, hk⟩ := hchunk name hname
    obtain ⟨file, hfile, p, hp, rfl⟩ :=
      exists_of_mem_of_forall₂ (ofGraph_eq_ok hg h.ofGraph).2.1 hs
    exact .inr ⟨s.name, s.modules, p.code, some p.map, rfl, hk, hp.defines, hserved _ hfile⟩

/-- The scripts of a bundle have different names exactly if no two of them clash, and then the
bundle is served whole. -/
theorem nodup_names_iff (h : b.bundle request = .ok out) : ∃ g, b.Makes request g out ∧
    ((out.files.map (·.name)).Nodup ↔ ∀ s ∈ laterScripts g, ∀ t ∈ laterScripts g,
      Clash g s t → s.target = t.target) ∧
    ((out.files.map (·.name)).Nodup → b.IsServedWhole request g out) := by
  obtain ⟨g, hmakes⟩ := exists_makes h
  exact ⟨g, hmakes, hmakes.nodup_iff, hmakes.isServedWhole⟩

/-- A worker with two scripts that it loads later. -/
def siblingScripts : List (String × String) := [
  ("/w.js", "import('./a.js'); import('./b.js')"), ("/a.js", ""), ("/b.js", "")]

theorem nodup_names_iff_siblings : ∃ g out,
    (ofScripts siblingScripts).bundle (requestOf "/w.js") = .ok out ∧ out.files.length = 2 ∧
      (ofScripts siblingScripts).Makes (requestOf "/w.js") g out ∧
      (out.files.map (·.name)).Nodup ∧
      (ofScripts siblingScripts).IsServedWhole (requestOf "/w.js") g out := by
  obtain ⟨-, out, -, hout, h⟩ := exists_built_of_any (ofScripts siblingScripts)
    (requestOf "/w.js") 4
    (fun _ out => out.files.length = 2 ∧ (out.files.map (·.name)).Nodup)
    (by decide) (by decide +kernel)
  obtain ⟨hlength, hnames⟩ := of_decide_eq_true h
  obtain ⟨g, hmakes, -, hserved⟩ := nodup_names_iff hout
  exact ⟨g, out, hout, hlength, hmakes, hnames, hserved hnames⟩

/-- A worker that loads two scripts later, whose files differ in the extension. The end of one name
and the code behind it make the other name. -/
def clashingScripts : List (String × String) := [
  ("/w.js", "import('./a.js'); import('./a.j')"), ("/a.js", ""), ("/a.j", "s")]

/-- Different scripts of a bundle may share a name. -/
theorem exists_bundle_shared_name : ∃ g out,
    ((ofScripts clashingScripts).loader (requestOf "/w.js")).load ⟨"/w.js"⟩ = .ok g ∧
      (ofScripts clashingScripts).bundle (requestOf "/w.js") = .ok out ∧
      (laterScripts g).map (fun s => (s.target, scriptText g s.modules)) =
        [(1, "a.js"), (2, "a.js")] ∧
      ¬(out.files.map (·.name)).Nodup := by
  obtain ⟨g, out, hload, hout, h⟩ := exists_built_of_any (ofScripts clashingScripts)
    (requestOf "/w.js") 4
    (fun g out => (laterScripts g).map (fun s => (s.target, scriptText g s.modules)) =
      [(1, "a.js"), (2, "a.js")] ∧ ¬(out.files.map (·.name)).Nodup)
    (by decide) (by decide +kernel)
  obtain ⟨htexts, hnames⟩ := of_decide_eq_true h
  exact ⟨g, out, hload, hout, htexts, hnames⟩

end Bundler

end ModuleWorkers

import Raticode.RattishBundles

/-! What an exported bundle is when it is imported again. The exporter and the importer
check names alike, and the two meet at `Agree`: how two spellings may stand in one folder.
The sizes are checked on one side only. -/
namespace Raticode.Bundle
open PyDocument Attempt OrderedDict

variable {h : Host}

/-! Names. -/

def Agree (h : Host) (a b : Str × Bool) : Prop :=
  h.casefold a.1 = h.casefold b.1 → a.1 = b.1 ∧ a.2 = false ∧ b.2 = false

theorem Agree.symm {a b : Str × Bool} (hab : Agree h a b) : Agree h b a := by
  intro hkey
  obtain ⟨hspelling, ha, hb⟩ := hab hkey.symm
  exact ⟨hspelling.symm, hb, ha⟩

structure Records (h : Host) (seen : Seen) (met : List (Str × Bool)) : Prop where
  spelling : ∀ key s, seen.spellings.get key = some s ↔ ∃ a ∈ met, h.casefold a.1 = key ∧ a.1 = s
  file : ∀ key, key ∈ seen.files ↔ ∃ a ∈ met, h.casefold a.1 = key ∧ a.2 = true
  directory : ∀ key, key ∈ seen.directories ↔ ∃ a ∈ met, h.casefold a.1 = key ∧ a.2 = false
  pairwise : met.Pairwise (Agree h)

theorem records_nil : Records h ⟨[], [], []⟩ [] where
  spelling := by simp
  file := by simp
  directory := by simp
  pairwise := List.Pairwise.nil

variable {seen seen' : Seen} {met : List (Str × Bool)} {name : Str} {b : Str × Bool}

def Seen.with (h : Host) (seen : Seen) (b : Str × Bool) : Seen :=
  ⟨seen.spellings.setDefault (h.casefold b.1) b.1,
    if b.2 then h.casefold b.1 :: seen.files else seen.files,
    if b.2 then seen.directories else h.casefold b.1 :: seen.directories⟩

def Seen.collides (h : Host) (seen : Seen) (b : Str × Bool) : Bool :=
  (seen.spellings.get (h.casefold b.1)).getD b.1 ≠ b.1 ||
    seen.files.contains (h.casefold b.1) ||
    (b.2 && seen.directories.contains (h.casefold b.1))

theorem Seen.collides_eq_false_iff : seen.collides h b = false ↔
    (seen.spellings.get (h.casefold b.1)).getD b.1 = b.1 ∧
      h.casefold b.1 ∉ seen.files ∧ (b.2 = true → h.casefold b.1 ∉ seen.directories) := by
  simp [Seen.collides, and_assoc]

theorem Seen.meet_eq : seen.meet h name b =
    if seen.collides h b then
      .error (text "Colliding workflow bundle paths: " ++
        (seen.spellings.get (h.casefold b.1)).getD b.1 ++ text ", " ++ name)
    else .ok (seen.with h b) := rfl

theorem exists_mem_append_singleton {P : Str × Bool → Prop} :
    (∃ a ∈ met ++ [b], P a) ↔ (∃ a ∈ met, P a) ∨ P b := by
  simp [or_and_right, exists_or]

theorem Records.refuses (hseen : Records h seen met) (hagree : ¬ ∀ a ∈ met, Agree h a b) :
    ∀ seen', seen.meet h name b ≠ .ok seen' := by
  intro seen' hmeet
  apply hagree
  intro a ha hkey
  rw [Seen.meet_eq] at hmeet
  split at hmeet
  · cases hmeet
  · next hpass =>
    have hprevious : seen.spellings.get (h.casefold b.1) = some a.1 :=
      (hseen.spelling _ _).mpr ⟨a, ha, hkey, rfl⟩
    have hfile : a.2 = true → h.casefold b.1 ∈ seen.files := fun htrue =>
      (hseen.file _).mpr ⟨a, ha, hkey, htrue⟩
    have hdirectory : a.2 = false → h.casefold b.1 ∈ seen.directories := fun hfalse =>
      (hseen.directory _).mpr ⟨a, ha, hkey, hfalse⟩
    obtain ⟨hsame, hnofile, hnodirectory⟩ :=
      Seen.collides_eq_false_iff.mp (Bool.eq_false_iff.mpr hpass)
    rw [hprevious, Option.getD_some] at hsame
    have hdir : a.2 = false := Bool.eq_false_iff.mpr fun htrue => hnofile (hfile htrue)
    have hb : b.2 = false := Bool.eq_false_iff.mpr fun htrue =>
      hnodirectory htrue (hdirectory hdir)
    exact ⟨hsame, hdir, hb⟩

theorem Records.accepts (hseen : Records h seen met) (hagree : ∀ a ∈ met, Agree h a b) :
    seen.meet h name b = .ok (seen.with h b) := by
  have hprevious : (seen.spellings.get (h.casefold b.1)).getD b.1 = b.1 := by
    cases hget : seen.spellings.get (h.casefold b.1) with
    | none => rfl
    | some s =>
      obtain ⟨a, ha, hkey, hs⟩ := (hseen.spelling _ _).mp hget
      rw [Option.getD_some, ← hs]
      exact (hagree a ha hkey).1
  have hfile : h.casefold b.1 ∉ seen.files := by
    intro hmem
    obtain ⟨a, ha, hkey, htrue⟩ := (hseen.file _).mp hmem
    have hfalse := (hagree a ha hkey).2.1
    rw [htrue] at hfalse
    exact absurd hfalse (by decide)
  have hdirectory : b.2 = true → h.casefold b.1 ∉ seen.directories := by
    intro htrue hmem
    obtain ⟨a, ha, hkey, -⟩ := (hseen.directory _).mp hmem
    have hfalse := (hagree a ha hkey).2.2
    rw [htrue] at hfalse
    exact absurd hfalse (by decide)
  have hpass := Seen.collides_eq_false_iff.mpr ⟨hprevious, hfile, hdirectory⟩
  rw [Seen.meet_eq, hpass]
  rfl

theorem Records.with (hseen : Records h seen met) (hagree : ∀ a ∈ met, Agree h a b) :
    Records h (seen.with h b) (met ++ [b]) where
  spelling := by
    intro key s
    simp only [Seen.with, Dict.setDefault]
    split
    · next hsome =>
      obtain ⟨s₀, hget⟩ := Option.isSome_iff_exists.mp hsome
      obtain ⟨a₀, ha₀, hkey₀, -⟩ := (hseen.spelling _ _).mp hget
      have hsame : a₀.1 = b.1 := (hagree a₀ ha₀ hkey₀).1
      rw [hseen.spelling key s]
      constructor
      · rintro ⟨a, ha, hkey, hs⟩
        exact ⟨a, List.mem_append_left _ ha, hkey, hs⟩
      · rintro ⟨a, ha, hkey, hs⟩
        rcases List.mem_append.mp ha with ha | ha
        · exact ⟨a, ha, hkey, hs⟩
        · -- the last spelling is the one that was there
          rw [List.mem_singleton.mp ha] at hkey hs
          exact ⟨a₀, ha₀, hkey₀.trans hkey, hsame.trans hs⟩
    · next hnone =>
      rw [Dict.get_set]
      split
      · next hkey =>
        constructor
        · intro hs
          exact ⟨b, List.mem_append_right _ (List.mem_singleton_self b), hkey, Option.some.inj hs⟩
        · rintro ⟨a, ha, hka, hs⟩
          rcases List.mem_append.mp ha with ha | ha
          · have hget := (hseen.spelling _ _).mpr ⟨a, ha, hka.trans hkey.symm, rfl⟩
            rw [hget] at hnone
            exact absurd rfl hnone
          · rw [← hs, List.mem_singleton.mp ha]
      · next hkey =>
        rw [hseen.spelling key s]
        constructor
        · rintro ⟨a, ha, hka, hs⟩
          exact ⟨a, List.mem_append_left _ ha, hka, hs⟩
        · rintro ⟨a, ha, hka, hs⟩
          rcases List.mem_append.mp ha with ha | ha
          · exact ⟨a, ha, hka, hs⟩
          · rw [List.mem_singleton.mp ha] at hka
            exact absurd hka hkey
  file := by
    intro key
    rw [exists_mem_append_singleton, ← hseen.file key]
    cases hb : b.2 with
    | false => simp [Seen.with, hb]
    | true =>
      simp only [Seen.with, hb, ↓reduceIte, List.mem_cons, and_true]
      rw [or_comm, eq_comm]
  directory := by
    intro key
    rw [exists_mem_append_singleton, ← hseen.directory key]
    cases hb : b.2 with
    | true => simp [Seen.with, hb]
    | false =>
      simp only [Seen.with, hb, Bool.false_eq_true, ↓reduceIte, List.mem_cons, and_true]
      rw [or_comm, eq_comm]
  pairwise := by
    rw [List.pairwise_append]
    refine ⟨hseen.pairwise, List.pairwise_singleton _ _, ?_⟩
    intro a ha c hc
    rw [List.mem_singleton.mp hc]
    exact hagree a ha

theorem Records.of_meet (hseen : Records h seen met) (hmeet : seen.meet h name b = .ok seen') :
    Records h seen' (met ++ [b]) := by
  have hagree : ∀ a ∈ met, Agree h a b := by
    by_contra hnot
    exact hseen.refuses hnot seen' hmeet
  have hsame : seen' = seen.with h b := by
    rw [hseen.accepts hagree] at hmeet
    exact (Except.ok.inj hmeet).symm
  rw [hsame]
  exact hseen.with hagree

variable {l : List (Str × Bool)} {names : List Str}

theorem Records.fold (hseen : Records h seen met) (hpairwise : (met ++ l).Pairwise (Agree h)) :
    ∃ seen', l.foldlM (Seen.meet h name) seen = .ok seen' ∧ Records h seen' (met ++ l) := by
  induction l generalizing seen met with
  | nil =>
    rw [List.append_nil]
    exact ⟨seen, rfl, hseen⟩
  | cons b l ih =>
    have hagree : ∀ a ∈ met, Agree h a b := by
      intro a ha
      exact (List.pairwise_append.mp hpairwise).2.2 a ha b List.mem_cons_self
    rw [List.append_cons] at hpairwise ⊢
    obtain ⟨seen', hrun, hrecords⟩ := ih (hseen.with hagree) hpairwise
    refine ⟨seen', ?_, hrecords⟩
    rw [List.foldlM_cons, hseen.accepts hagree]
    exact hrun

theorem Records.of_fold (hseen : Records h seen met)
    (hrun : l.foldlM (Seen.meet h name) seen = .ok seen') : Records h seen' (met ++ l) := by
  induction l generalizing seen met with
  | nil =>
    rw [List.append_nil, ← Except.ok.inj hrun]
    exact hseen
  | cons b l ih =>
    rw [List.foldlM_cons] at hrun
    obtain ⟨next, hmeet, hrest⟩ := bind_ok hrun
    rw [List.append_cons]
    exact ih (hseen.of_meet hmeet) hrest

theorem Records.meetNames (hseen : Records h seen met)
    (hvalid : ∀ name ∈ names, validBundlePath h name = true)
    (hpairwise : (met ++ names.flatMap impliedPaths).Pairwise (Agree h)) :
    ∃ seen', Seen.meetNames h seen names = .ok seen' := by
  induction names generalizing seen met with
  | nil => exact ⟨seen, rfl⟩
  | cons name names ih =>
    rw [List.flatMap_cons, ← List.append_assoc] at hpairwise
    have hfirst := (List.pairwise_append.mp hpairwise).1
    obtain ⟨next, hrun, hrecords⟩ := hseen.fold hfirst
    obtain ⟨seen', hrest⟩ :=
      ih hrecords (fun n hn => hvalid n (List.mem_cons_of_mem _ hn)) hpairwise
    refine ⟨seen', ?_⟩
    rw [Seen.meetNames, validateBundlePath, require_bind]
    refine ⟨hvalid name List.mem_cons_self, ?_⟩
    rw [hrun]
    exact hrest

theorem Records.of_meetNames (hseen : Records h seen met)
    (hrun : Seen.meetNames h seen names = .ok seen') :
    (∀ name ∈ names, validBundlePath h name = true) ∧
      (met ++ names.flatMap impliedPaths).Pairwise (Agree h) := by
  induction names generalizing seen met with
  | nil =>
    rw [List.flatMap_nil, List.append_nil]
    exact ⟨fun name hname => absurd hname List.not_mem_nil, hseen.pairwise⟩
  | cons name names ih =>
    rw [Seen.meetNames, validateBundlePath, require_bind] at hrun
    obtain ⟨hname, hrun⟩ := hrun
    obtain ⟨next, hfold, hrest⟩ := bind_ok hrun
    obtain ⟨hnames, hpairwise⟩ := ih (hseen.of_fold hfold) hrest
    rw [List.flatMap_cons, ← List.append_assoc]
    exact ⟨List.forall_mem_cons.mpr ⟨hname, hnames⟩, hpairwise⟩

theorem collisions_ok_iff : validateBundlePathCollisions h names = .ok () ↔
    (∀ name ∈ names, validBundlePath h name = true) ∧
      (names.flatMap impliedPaths).Pairwise (Agree h) := by
  constructor
  · intro hrun
    obtain ⟨seen', hnames, -⟩ := bind_ok hrun
    exact records_nil.of_meetNames hnames
  · intro ⟨hvalid, hpairwise⟩
    obtain ⟨seen', hrun⟩ := records_nil.meetNames hvalid hpairwise
    rw [validateBundlePathCollisions, hrun]
    rfl

theorem collisions_ok_perm {names' : List Str} (hperm : names.Perm names')
    (hok : validateBundlePathCollisions h names = .ok ()) :
    validateBundlePathCollisions h names' = .ok () := by
  obtain ⟨hvalid, hpairwise⟩ := collisions_ok_iff.mp hok
  refine collisions_ok_iff.mpr ⟨fun name hname => hvalid name (hperm.mem_iff.mpr hname), ?_⟩
  exact ((hperm.flatMap_right impliedPaths).pairwise_iff Agree.symm).mp hpairwise

/-! Sizes. -/

/-- What `_validate_archive` asks of one entry, the names before it apart. -/
structure Accepted (h : Host) (limits : ResourceLimits) (info : ZipInfo) : Prop where
  valid : validBundlePath h info.filename = true
  original : info.origFilename = info.filename
  noLink : isLnk (info.externalAttr >>> 16) = false
  plain : info.flagBits &&& 0x41 = 0
  unpatched : info.flagBits &&& 0x20 = 0
  compression : info.compressType = 0 ∨ info.compressType = 8
  size : info.fileSize ≤ limits.maxBundleEntryBytes
  ratio : info.compressSize = 0 ∨
    info.fileSize ≤ limits.maxBundleCompressionRatio * info.compressSize

variable {limits : ResourceLimits} {infos : List ZipInfo} {info : ZipInfo} {total : ℕ}

theorem checkInfos_cons_iff : checkInfos h limits names total (info :: infos) = .ok () ↔
    Accepted h limits info ∧ info.filename ∉ names ∧
      total + info.fileSize ≤ limits.maxBundleTotalUncompressedBytes ∧
      checkInfos h limits (info.filename :: names) (total + info.fileSize) infos = .ok () := by
  simp only [checkInfos, validateBundlePath, require_bind, Bool.and_eq_true, Bool.or_eq_true,
    Bool.not_eq_true', decide_eq_true_eq, List.contains_eq_mem, decide_eq_false_iff_not]
  constructor
  · intro ⟨hvalid, ⟨horiginal, hnew⟩, hlink, hplain, hpatch, htype, hsize, htotal, hratio, hrest⟩
    exact ⟨⟨hvalid, horiginal, hlink, hplain, hpatch, htype, hsize, hratio⟩, hnew, htotal, hrest⟩
  · intro ⟨⟨hvalid, horiginal, hlink, hplain, hpatch, htype, hsize, hratio⟩, hnew, htotal, hrest⟩
    exact ⟨hvalid, ⟨horiginal, hnew⟩, hlink, hplain, hpatch, htype, hsize, htotal, hratio, hrest⟩

theorem checkInfos_sound (hrun : checkInfos h limits names total infos = .ok ()) :
    (∀ info ∈ infos, Accepted h limits info) ∧
      (infos ≠ [] → total + (infos.map ZipInfo.fileSize).sum ≤
        limits.maxBundleTotalUncompressedBytes) := by
  induction infos generalizing names total with
  | nil => exact ⟨fun info hinfo => absurd hinfo List.not_mem_nil, fun hne => absurd rfl hne⟩
  | cons info infos ih =>
    obtain ⟨haccepted, -, htotal, hrest⟩ := checkInfos_cons_iff.mp hrun
    obtain ⟨hall, hsum⟩ := ih hrest
    refine ⟨List.forall_mem_cons.mpr ⟨haccepted, hall⟩, fun _ => ?_⟩
    rw [List.map_cons, List.sum_cons]
    by_cases hnil : infos = []
    · rw [hnil, List.map_nil, List.sum_nil]
      omega
    · have hlast := hsum hnil
      omega

theorem checkInfos_complete (hall : ∀ info ∈ infos, Accepted h limits info)
    (hnodup : (infos.map ZipInfo.filename).Nodup)
    (hnew : ∀ info ∈ infos, info.filename ∉ names)
    (hsum : total + (infos.map ZipInfo.fileSize).sum ≤
      limits.maxBundleTotalUncompressedBytes) :
    checkInfos h limits names total infos = .ok () := by
  induction infos generalizing names total with
  | nil => rfl
  | cons info infos ih =>
    rw [List.map_cons, List.sum_cons] at hsum
    rw [List.map_cons, List.nodup_cons] at hnodup
    have hrest : checkInfos h limits (info.filename :: names) (total + info.fileSize) infos =
        .ok () := by
      apply ih (fun i hi => hall i (List.mem_cons_of_mem _ hi)) hnodup.2
      · intro i hi hmem
        rcases List.mem_cons.mp hmem with hsame | hmem
        · exact hnodup.1 (hsame ▸ List.mem_map_of_mem hi)
        · exact hnew i (List.mem_cons_of_mem _ hi) hmem
      · omega
    apply checkInfos_cons_iff.mpr
    refine ⟨hall info List.mem_cons_self, hnew info List.mem_cons_self, ?_, hrest⟩
    omega

/-! What is exported. -/

variable {w : Workflow} {patterns : List (Str × Bool)} {items : List Item}

def keptFile (h : Host) (w : Workflow) (patterns : List (Str × Bool)) (item : Item) :
    List File :=
  if passedOver h w patterns item then []
  else
    match item.kind with
    | .plain (.file content bits) => [⟨bundledName item.relative, content, 0o100000 + bits⟩]
    | _ => []

def Workflow.kept (h : Host) (w : Workflow) : List File :=
  match w.patterns with
  | .error _ => []
  | .ok patterns => w.items.flatMap (keptFile h w patterns)

theorem keptFile_of_portableFile {item : Item} {found : List File}
    (hrun : portableFile h w patterns item = .ok found) : found = keptFile h w patterns item := by
  unfold portableFile at hrun
  unfold keptFile
  split at hrun
  · next hover =>
    rw [if_pos hover]
    exact (Except.ok.inj hrun).symm
  · next hover =>
    rw [if_neg hover]
    split at hrun
    · cases hrun
    · next content bits hkind =>
      obtain ⟨-, hpure⟩ := require_bind.mp hrun
      rw [hkind]
      exact (Except.ok.inj hpure).symm
    · next hother hkind =>
      rw [hkind]
      have hnil := (Except.ok.inj hrun).symm
      split
      · next heq =>
        rw [Kind.plain.injEq] at heq
        exact absurd heq (hother _ _)
      · exact hnil

theorem collectFiles_eq {files : List File}
    (hrun : collectFiles h w patterns items = .ok files) :
    files = items.flatMap (keptFile h w patterns) := by
  induction items generalizing files with
  | nil => exact (Except.ok.inj hrun).symm
  | cons item items ih =>
    obtain ⟨found, hfound, hrun⟩ := bind_ok hrun
    obtain ⟨rest, hrest, hpure⟩ := bind_ok hrun
    have hfiles : found ++ rest = files := Except.ok.inj hpure
    rw [← hfiles, keptFile_of_portableFile hfound, ih hrest, List.flatMap_cons]

theorem portableWorkspaceFiles_perm {files : List File}
    (hrun : portableWorkspaceFiles h w = .ok files) :
    files.Perm (w.kept h) ∧ workflowEntrypoint ∈ files.map File.path := by
  obtain ⟨patterns, hpatterns, hrun⟩ := bind_ok hrun
  obtain ⟨found, hfound, hrun⟩ := bind_ok hrun
  obtain ⟨hentry, hpure⟩ := require_bind.mp hrun
  have hfiles : found = files := Except.ok.inj hpure
  rw [← hfiles]
  refine ⟨?_, List.contains_iff_mem.mp hentry⟩
  rw [collectFiles_eq hfound, Workflow.kept, hpatterns]
  exact (List.mergeSort_perm _ _).flatMap_right _

theorem mem_keptFile {item : Item} {file : File} (hfile : file ∈ keptFile h w patterns item) :
    passedOver h w patterns item = false ∧ file.path = bundledName item.relative ∧
      ∃ content bits, item.kind = .plain (.file content bits) ∧
        file = ⟨bundledName item.relative, content, 0o100000 + bits⟩ := by
  unfold keptFile at hfile
  split at hfile
  · exact absurd hfile List.not_mem_nil
  · next hover =>
    split at hfile
    · next content bits hkind =>
      have hsame := List.mem_singleton.mp hfile
      exact ⟨Bool.eq_false_iff.mpr hover, congrArg File.path hsame, content, bits, hkind, hsame⟩
    · exact absurd hfile List.not_mem_nil

theorem item_eq {item : Item} (hitem : item ∈ w.items) : w.item item.relative = some item := by
  unfold Workflow.item
  cases hfind : w.items.find? (fun other => other.relative = item.relative) with
  | none =>
    have hnone := List.find?_eq_none.mp hfind item hitem
    exact absurd (decide_eq_true rfl) hnone
  | some other =>
    have hrelative : other.relative = item.relative := by
      simpa using List.find?_some hfind
    rw [List.inj_on_of_nodup_map w.nodup (List.mem_of_find?_eq_some hfind) hitem hrelative]

theorem ignorePath_eq (hexists : w.existsAt workflowIgnore = true) :
    w.ignorePath = workflowIgnore := by
  simp [Workflow.ignorePath, legacyWorkflowIgnores, hexists]

theorem workflowIgnore_not_legacy : workflowIgnore ∉ legacyWorkflowIgnores := by decide

theorem legacy_in_use {item : Item} (hover : passedOver h w patterns item = false)
    (hlegacy : item.relative ∈ legacyWorkflowIgnores) : item.relative = w.ignorePath := by
  simp only [passedOver, Bool.or_eq_false_iff, Bool.and_eq_false_iff] at hover
  rcases hover.1 with hnot | huse
  · exact absurd (List.contains_iff_mem.mpr hlegacy) (Bool.eq_false_iff.mp hnot)
  · exact not_not.mp (of_decide_eq_false huse)

theorem bundledName_inj {a b : Item} (ha : a ∈ w.items) (hb : b ∈ w.items)
    {f g : File} (hf : f ∈ keptFile h w patterns a) (hg : g ∈ keptFile h w patterns b)
    (hpath : f.path = g.path) : a.relative = b.relative := by
  -- a file of the present name leaves no other ignore file in use
  have hone : ∀ {a b : Item} {f g : File}, b ∈ w.items → f ∈ keptFile h w patterns a →
      g ∈ keptFile h w patterns b → a.relative ∈ legacyWorkflowIgnores →
      b.relative = workflowIgnore → False := by
    intro a b f g hb hf hg hlegacy hpresent
    obtain ⟨hover, -, -⟩ := mem_keptFile hf
    obtain ⟨-, -, content, bits, hkind, -⟩ := mem_keptFile hg
    have hexists : w.existsAt workflowIgnore = true := by
      rw [Workflow.existsAt, ← hpresent, item_eq hb]
      simp [Item.node, hkind]
    rw [legacy_in_use hover hlegacy, ignorePath_eq hexists] at hlegacy
    exact workflowIgnore_not_legacy hlegacy
  obtain ⟨hovera, hfa, -⟩ := mem_keptFile hf
  obtain ⟨hoverb, hgb, -⟩ := mem_keptFile hg
  rw [hfa, hgb] at hpath
  unfold bundledName at hpath
  split at hpath
  · next hla =>
    have hla := List.contains_iff_mem.mp hla
    split at hpath
    · next hlb =>
      have hlb := List.contains_iff_mem.mp hlb
      rw [legacy_in_use hovera hla, legacy_in_use hoverb hlb]
    · exact (hone hb hf hg hla hpath.symm).elim
  · split at hpath
    · next hlb => exact (hone ha hg hf (List.contains_iff_mem.mp hlb) hpath).elim
    · exact hpath

theorem kept_nodup : ((w.kept h).map File.path).Nodup := by
  unfold Workflow.kept
  split
  · exact List.nodup_nil
  · next patterns hpatterns =>
    rw [List.map_flatMap, List.nodup_flatMap]
    constructor
    · intro item hitem
      unfold keptFile
      split
      · exact List.nodup_nil
      · split
        · exact List.nodup_singleton _
        · exact List.nodup_nil
    · have hdistinct : w.items.Pairwise (fun a b => a.relative ≠ b.relative) :=
        List.pairwise_map.mp w.nodup
      refine hdistinct.imp_of_mem ?_
      intro a b ha hb hne path hpa hpb
      obtain ⟨f, hf, hfpath⟩ := List.mem_map.mp hpa
      obtain ⟨g, hg, hgpath⟩ := List.mem_map.mp hpb
      exact hne (bundledName_inj ha hb hf hg (hfpath.trans hgpath.symm))

def Workflow.archived (h : Host) (w : Workflow) : List File :=
  manifestFile h w ((w.kept h).map File.path) :: w.kept h

structure Exported (h : Host) (w : Workflow) (files : List File) : Prop where
  perm : files.Perm (w.kept h)
  nodup : ((bundleManifest :: files.map File.path)).Nodup
  entrypoint : workflowEntrypoint ∈ files.map File.path
  unreserved : ∀ name ∈ files.map File.path, name ∉ reserved
  collisions : validateBundlePathCollisions h (bundleManifest :: files.map File.path) = .ok ()

theorem sortedNames_perm (names : List Str) : (sortedNames names).Perm names :=
  List.mergeSort_perm _ _

theorem sortedNames_sorted (names : List Str) : (sortedNames names).Pairwise (· ≤ ·) :=
  List.pairwise_mergeSort' _ names

theorem sortedNames_eq {names names' : List Str} (hperm : names.Perm names') :
    sortedNames names = sortedNames names' :=
  ((sortedNames_perm names).trans (hperm.trans (sortedNames_perm names').symm)).eq_of_pairwise'
    (sortedNames_sorted names) (sortedNames_sorted names')

theorem exported_of_ok {output : List Str} (hrun : exportRattishBundle h w output = .ok infos) :
    ∃ files, Exported h w files ∧
      infos = (manifestFile h w ((w.kept h).map File.path) :: files).map (zipped h) := by
  obtain ⟨-, hrun⟩ := require_bind.mp hrun
  obtain ⟨files, hfiles, hrun⟩ := bind_ok hrun
  obtain ⟨hreserved, hrun⟩ := require_bind.mp hrun
  obtain ⟨⟨⟩, hcollisions, hrun⟩ := bind_ok hrun
  obtain ⟨-, hpure⟩ := require_bind.mp hrun
  obtain ⟨hperm, hentry⟩ := portableWorkspaceFiles_perm hfiles
  have hnodup : (files.map File.path).Nodup := (hperm.map File.path).nodup_iff.mpr kept_nodup
  have hdedup : (files.map File.path).dedup = files.map File.path := List.dedup_eq_self.2 hnodup
  have horder := h.setOrder_perm (files.map File.path).dedup
  rw [hdedup] at hreserved hcollisions hpure horder
  rw [hdedup] at horder
  have hunreserved : ∀ name ∈ files.map File.path, name ∉ reserved := by
    intro name hname hmem
    have hnone : (files.map File.path).any reserved.contains = false := by
      simpa using hreserved
    have hfalse := List.any_eq_false.mp hnone name hname
    exact hfalse (List.contains_iff_mem.mpr hmem)
  refine ⟨files, ⟨hperm, ?_, hentry, hunreserved, ?_⟩, ?_⟩
  · rw [List.nodup_cons]
    exact ⟨fun hmem => hunreserved _ hmem List.mem_cons_self, hnodup⟩
  · exact collisions_ok_perm (horder.cons bundleManifest) hcollisions
  · have hsorted := sortedNames_eq (hperm.map File.path)
    have hinfos := (Except.ok.inj hpure).symm
    rw [hinfos]
    simp only [manifestFile, hsorted]

theorem Exported.valid {files : List File} (he : Exported h w files) :
    ∀ name ∈ bundleManifest :: files.map File.path, validBundlePath h name = true :=
  (collisions_ok_iff.mp he.collisions).1

theorem kept_mode {file : File} (hfile : file ∈ w.kept h) :
    ∃ bits, bits < 0o10000 ∧ file.mode = 0o100000 + bits := by
  unfold Workflow.kept at hfile
  split at hfile
  · exact absurd hfile List.not_mem_nil
  · obtain ⟨item, -, hkept⟩ := List.mem_flatMap.mp hfile
    obtain ⟨-, -, content, bits, -, hsame⟩ := mem_keptFile hkept
    exact ⟨bits, bits.isLt, congrArg File.mode hsame⟩

theorem kept_format {file : File} (hfile : file ∈ w.kept h) : format file.mode = 0o10 := by
  obtain ⟨bits, hlt, hmode⟩ := kept_mode hfile
  rw [hmode, format]
  omega

theorem kept_isLnk {file : File} (hfile : file ∈ w.kept h) : isLnk file.mode = false := by
  rw [isLnk, kept_format hfile]
  rfl

theorem kept_isReg {file : File} (hfile : file ∈ w.kept h) : isReg file.mode = true := by
  rw [isReg, kept_format hfile]
  rfl

theorem zipped_mode (file : File) : (zipped h file).externalAttr >>> 16 = file.mode :=
  Nat.shiftLeft_shiftRight file.mode 16

theorem accepted_zipped_iff {file : File} (hvalid : validBundlePath h file.path = true)
    (hmode : isLnk file.mode = false) : Accepted h limits (zipped h file) ↔
      file.content.length ≤ limits.maxBundleEntryBytes ∧
        (h.deflated file.content = 0 ∨
          file.content.length ≤ limits.maxBundleCompressionRatio * h.deflated file.content) := by
  constructor
  · intro haccepted
    exact ⟨haccepted.size, haccepted.ratio⟩
  · intro ⟨hsize, hratio⟩
    have hlink : isLnk ((zipped h file).externalAttr >>> 16) = false := by
      rw [zipped_mode]
      exact hmode
    refine ⟨hvalid, rfl, hlink, ?_, ?_, .inr rfl, hsize, hratio⟩ <;>
    · simp only [zipped]
      split <;> rfl

structure Fits (h : Host) (limits : ResourceLimits) (files : List File) : Prop where
  entries : files.length ≤ limits.maxBundleEntries
  size : ∀ file ∈ files, file.content.length ≤ limits.maxBundleEntryBytes
  ratio : ∀ file ∈ files, h.deflated file.content = 0 ∨
    file.content.length ≤ limits.maxBundleCompressionRatio * h.deflated file.content
  total : (files.map (fun file => file.content.length)).sum ≤
    limits.maxBundleTotalUncompressedBytes

theorem Fits.perm {files files' : List File} (hperm : files.Perm files')
    (hfits : Fits h limits files) : Fits h limits files' where
  entries := hperm.length_eq ▸ hfits.entries
  size := fun file hfile => hfits.size file (hperm.mem_iff.mpr hfile)
  ratio := fun file hfile => hfits.ratio file (hperm.mem_iff.mpr hfile)
  total := (hperm.map (fun file => file.content.length)).sum_eq ▸ hfits.total

section Archive

variable {files : List File}

theorem zipped_filenames (files : List File) :
    (files.map (zipped h)).map ZipInfo.filename = files.map File.path := by
  rw [List.map_map]
  rfl

theorem zipped_sizes (files : List File) : (files.map (zipped h)).map ZipInfo.fileSize =
    files.map (fun file => file.content.length) := by
  rw [List.map_map]
  rfl

theorem validateArchive_iff {first : File} (hfirst : first.path = bundleManifest)
    (hmode : isLnk first.mode = false) (he : Exported h w files) :
    validateArchive h limits ((first :: files).map (zipped h)) = .ok () ↔
      Fits h limits (first :: files) := by
  have hpaths : (first :: files).map File.path = bundleManifest :: files.map File.path := by
    rw [List.map_cons, hfirst]
  have haccepted : ∀ file ∈ first :: files, Accepted h limits (zipped h file) ↔
      file.content.length ≤ limits.maxBundleEntryBytes ∧
        (h.deflated file.content = 0 ∨
          file.content.length ≤ limits.maxBundleCompressionRatio * h.deflated file.content) := by
    intro file hfile
    have hname : file.path ∈ bundleManifest :: files.map File.path := by
      rw [← hpaths]
      exact List.mem_map_of_mem hfile
    apply accepted_zipped_iff (he.valid _ hname)
    rcases List.mem_cons.mp hfile with hsame | hfile
    · rw [hsame]
      exact hmode
    · exact kept_isLnk (he.perm.mem_iff.mp hfile)
  rw [validateArchive, require_bind, zipped_filenames, hpaths, he.collisions, List.length_map]
  constructor
  · intro ⟨hentries, hrun⟩
    obtain ⟨hall, hsum⟩ := checkInfos_sound hrun
    have heach : ∀ file ∈ first :: files, Accepted h limits (zipped h file) :=
      fun file hfile => hall _ (List.mem_map_of_mem hfile)
    refine ⟨of_decide_eq_true hentries, fun file hfile => (heach file hfile).size,
      fun file hfile => (heach file hfile).ratio, ?_⟩
    have htotal := hsum (by simp)
    rw [zipped_sizes] at htotal
    omega
  · intro hfits
    refine ⟨decide_eq_true hfits.entries, ?_⟩
    apply checkInfos_complete
    · intro info hinfo
      obtain ⟨file, hfile, hsame⟩ := List.mem_map.mp hinfo
      rw [← hsame]
      exact (haccepted file hfile).mpr ⟨hfits.size file hfile, hfits.ratio file hfile⟩
    · rw [zipped_filenames, hpaths]
      exact he.nodup
    · intro info hinfo
      exact List.not_mem_nil
    · rw [zipped_sizes]
      have htotal := hfits.total
      omega

theorem getinfo_eq {infos : List ZipInfo} {info : ZipInfo} (hinfo : info ∈ infos)
    (hnodup : (infos.map ZipInfo.filename).Nodup) : getinfo infos info.filename = some info := by
  unfold getinfo
  cases hfind : infos.reverse.find? (fun other => other.filename = info.filename) with
  | none =>
    have hnone := List.find?_eq_none.mp hfind info (List.mem_reverse.mpr hinfo)
    exact absurd (decide_eq_true rfl) hnone
  | some other =>
    have hname : other.filename = info.filename := by
      simpa using List.find?_some hfind
    have hother : other ∈ infos := List.mem_reverse.mp (List.mem_of_find?_eq_some hfind)
    rw [List.inj_on_of_nodup_map hnodup hother hinfo hname]

theorem manifestName_eq (he : Exported h w files) {infos : List ZipInfo}
    (hnames : infos.map ZipInfo.filename = bundleManifest :: files.map File.path) :
    manifestName infos = .ok bundleManifest := by
  have hfilter : reserved.filter (fun name => (infos.map ZipInfo.filename).contains name) =
      [bundleManifest] := by
    have hlegacy : ∀ name ∈ legacyBundleFormats.keys, name ≠ bundleManifest := by decide
    rw [hnames, reserved, List.filter_cons_of_pos (by simp), List.filter_eq_nil_iff.mpr]
    intro name hname hmem
    rcases List.mem_cons.mp (List.contains_iff_mem.mp hmem) with hsame | hmem
    · exact hlegacy name hname hsame
    · exact he.unreserved name hmem (List.mem_cons_of_mem _ hname)
  unfold manifestName
  rw [hfilter]

theorem mapM_string (names : List Str) : (names.map Value.str).mapM string = some names := by
  induction names with
  | nil => rfl
  | cons name names ih =>
    rw [List.map_cons, List.mapM_cons, ih]
    rfl

theorem tooDeepItems_strings (names : List Str) :
    tooDeepItems 2 (names.map Value.str) = false := by
  induction names with
  | nil => rfl
  | cons name names ih =>
    rw [List.map_cons, tooDeepItems, ih]
    rfl

variable {workflowId workflowName : Str}

theorem tooDeep_manifest : tooDeep 0 (manifest workflowId workflowName names) = false := by
  simp [manifest, tooDeep, tooDeepMembers, tooDeepItems_strings]

theorem manifestMembers_manifest :
    manifestMembers bundleManifest (manifest workflowId workflowName names) =
      some ⟨workflowId, workflowName, names⟩ := by
  have hformat : member "format" (manifest workflowId workflowName names) =
      some (.str (text "raticode-workflow")) := rfl
  have hversion : member "version" (manifest workflowId workflowName names) = some (.int 1) := rfl
  have hid : member "workflowId" (manifest workflowId workflowName names) =
      some (.str workflowId) := rfl
  have hname : member "workflowName" (manifest workflowId workflowName names) =
      some (.str workflowName) := rfl
  have hfiles : member "files" (manifest workflowId workflowName names) =
      some (.list (names.map Value.str)) := rfl
  have hlegacy : legacyBundleFormats.get bundleManifest = none := by decide
  have hsame : ∀ s : Str, eqValue (.str s) (.str s) = true := by simp [eqValue]
  have hone : eqValue (.int 1) (.int 1) = true := by simp [eqValue, Value.number?, Double.eq]
  simp [-List.mapM_map, manifestMembers, hformat, hversion, hid, hname, hfiles, hlegacy, mapM_string, hsame, hone,
    string]

theorem previewArchive_iff (he : Exported h w files) {first : File}
    (hfirst : first.path = bundleManifest)
    (hjson : h.loaded first.content =
      some (manifest workflowId workflowName (sortedNames (files.map File.path))))
    {preview : Manifest} :
    previewArchive h limits ((first :: files).map (zipped h)) = .ok preview ↔
      first.content.length ≤ limits.maxBundleMetadataBytes ∧
        preview = ⟨workflowId, workflowName, sortedNames (files.map File.path)⟩ := by
  have hnames : ((first :: files).map (zipped h)).map ZipInfo.filename =
      bundleManifest :: files.map File.path := by
    rw [zipped_filenames, List.map_cons, hfirst]
  have hname := manifestName_eq he hnames
  have hget : getinfo ((first :: files).map (zipped h)) bundleManifest =
      some (zipped h first) := by
    have hfound : getinfo ((first :: files).map (zipped h)) (zipped h first).filename =
        some (zipped h first) := by
      have hnodup : (((first :: files).map (zipped h)).map ZipInfo.filename).Nodup := by
        rw [hnames]
        exact he.nodup
      exact getinfo_eq List.mem_cons_self hnodup
    rwa [show (zipped h first).filename = bundleManifest from hfirst] at hfound
  have htake : (zipped h first).content.take (first.content.length + 1) = first.content := by
    apply List.take_of_length_le
    show first.content.length ≤ first.content.length + 1
    omega
  have hfilter : (bundleManifest :: files.map File.path).filter (fun n => n ≠ bundleManifest) =
      files.map File.path := by
    rw [List.filter_cons_of_neg (by simp), List.filter_eq_self]
    intro name hmem
    have hnodup := (List.nodup_cons.mp he.nodup).1
    exact decide_eq_true fun hsame => hnodup (hsame ▸ hmem)
  have hsorted : sortedNames (sortedNames (files.map File.path)) =
      sortedNames (files.map File.path) := sortedNames_eq (sortedNames_perm _)
  have hentry : workflowEntrypoint ∈ sortedNames (files.map File.path) :=
    (sortedNames_perm _).mem_iff.mpr he.entrypoint
  have hread : ∀ manifest, readManifest h limits ((first :: files).map (zipped h)) =
      .ok manifest ↔ first.content.length ≤ limits.maxBundleMetadataBytes ∧
        manifest = ⟨workflowId, workflowName, sortedNames (files.map File.path)⟩ := by
    intro manifest
    have hsize : (zipped h first).fileSize = first.content.length := rfl
    have hbound : ∀ (name : Str) (rest : Str → Except Str Manifest),
        (Except.ok name >>= rest) = rest name := fun _ _ => rfl
    rw [readManifest, hname, hbound, hget]
    simp only [require_bind, htake, hjson, tooDeep_manifest, manifestMembers_manifest, hsize,
      decide_eq_true_eq, Bool.not_false, true_and, Except.ok.injEq]
    rw [eq_comm (a := manifest)]
  rw [previewArchive]
  constructor
  · intro hrun
    obtain ⟨manifest, hmanifest, hrun⟩ := bind_ok hrun
    obtain ⟨hsize, hsame⟩ := (hread manifest).mp hmanifest
    refine ⟨hsize, ?_⟩
    obtain ⟨name, hname', hrun⟩ := bind_ok hrun
    rw [hname] at hname'
    rw [← Except.ok.inj hname', hnames, hfilter] at hrun
    obtain ⟨-, hrun⟩ := require_bind.mp hrun
    obtain ⟨-, hpure⟩ := require_bind.mp hrun
    rw [← Except.ok.inj hpure, hsame]
  · rintro ⟨hsize, hsame⟩
    rw [(hread _).mpr ⟨hsize, rfl⟩, hname, hnames]
    show (require _ _ >>= fun _ => require _ _ >>= fun _ => pure _) = _
    rw [hfilter, require_bind, require_bind]
    refine ⟨decide_eq_true hsorted.symm, ?_, ?_⟩
    · rw [Bool.or_eq_true]
      exact .inl (List.contains_iff_mem.mpr hentry)
    · rw [hsame]
      rfl

/-! The staged folder. -/

theorem mem_impliedPaths {p : List Str} (hbelow : p <+: parts name) (hne : p ≠ []) :
    (slashed p, decide (p.length = (parts name).length)) ∈ impliedPaths name := by
  have hpos : 0 < p.length := List.length_pos_of_ne_nil hne
  have hle : p.length ≤ (parts name).length := hbelow.length_le
  have hindex : p.length - 1 + 1 = p.length := by omega
  apply List.mem_map.mpr
  refine ⟨p.length - 1, List.mem_range.mpr (by omega), ?_⟩
  rw [hindex, ← List.prefix_iff_eq_take.mp hbelow]

def Together (h : Host) (a b : Str) : Prop :=
  ∀ s ∈ impliedPaths a, ∀ t ∈ impliedPaths b, Agree h s t

theorem Together.symm {a b : Str} (hab : Together h a b) : Together h b a :=
  fun s hs t ht => (hab t ht s hs).symm

theorem valid_parts (hvalid : validBundlePath h name = true) :
    parts name ≠ [] ∧ slashed (parts name) = name := by
  simp only [validBundlePath, Bool.and_eq_true, decide_eq_true_eq] at hvalid
  exact ⟨hvalid.1.1.1.1.1.1.2, hvalid.1.1.1.2⟩

theorem Together.not_prefix {a b : Str} (ha : validBundlePath h a = true)
    (hab : Together h a b) : ¬ parts a <+: parts b := by
  intro hbelow
  obtain ⟨hne, hslashed⟩ := valid_parts ha
  have hfile := mem_impliedPaths (List.prefix_refl (parts a)) hne
  have habove := mem_impliedPaths hbelow hne
  have hagree := hab _ hfile _ habove rfl
  exact absurd hagree.2.1 (by simp)

def Apart (f g : File) : Prop :=
  parts f.path ≠ parts g.path ∧ nested (parts f.path) (parts g.path) = false

theorem Together.apart {f g : File} (hf : validBundlePath h f.path = true)
    (hg : validBundlePath h g.path = true) (hfg : Together h f.path g.path) : Apart f g := by
  have hleft := hfg.not_prefix hf
  have hright := hfg.symm.not_prefix hg
  constructor
  · intro hsame
    exact hleft (hsame ▸ List.prefix_refl _)
  · have hno : (parts f.path).isPrefixOf (parts g.path) = false :=
      Bool.eq_false_iff.mpr fun hpre => hleft (List.isPrefixOf_iff_prefix.mp hpre)
    have hno' : (parts g.path).isPrefixOf (parts f.path) = false :=
      Bool.eq_false_iff.mpr fun hpre => hright (List.isPrefixOf_iff_prefix.mp hpre)
    rw [nested, hno, hno', Bool.or_false, Bool.and_false]

def File.permitted (file : File) : File := { file with mode := file.mode % 0o1000 }

theorem stageFile_eq {infos : List ZipInfo} {done : List File} {file : File}
    (hget : getinfo infos file.path = some (zipped h file)) (hreg : isReg file.mode = true)
    (hapart : ∀ f ∈ done, Apart f file) :
    stageFile h infos (done.map File.permitted) file.path =
      .ok ((done ++ [file]).map File.permitted) := by
  have hfree : (done.map File.permitted).any
      (fun f => nested (parts f.path) (parts file.path)) = false := by
    rw [List.any_eq_false]
    intro f hf
    obtain ⟨g, hg, hsame⟩ := List.mem_map.mp hf
    rw [← hsame, Bool.not_eq_true]
    exact (hapart g hg).2
  have hothers : (done.map File.permitted).filter
      (fun f => parts f.path ≠ parts file.path) = done.map File.permitted := by
    rw [List.filter_eq_self]
    intro f hf
    obtain ⟨g, hg, hsame⟩ := List.mem_map.mp hf
    rw [← hsame]
    exact decide_eq_true (hapart g hg).1
  have hmode : (if (zipped h file).createSystem = 3 &&
      isReg ((zipped h file).externalAttr >>> 16) then
        (zipped h file).externalAttr >>> 16 % 0o1000 else h.newMode) = file.mode % 0o1000 := by
    rw [zipped_mode, hreg]
    rfl
  rw [stageFile, hget]
  simp only [hfree, hothers, Bool.false_eq_true, ↓reduceIte, List.map_append, List.map_cons,
    List.map_nil]
  rw [zipped_mode] at hmode ⊢
  rw [hmode]
  rfl

theorem stageFiles_eq {infos : List ZipInfo} {done rest : List File}
    (hget : ∀ file ∈ rest, getinfo infos file.path = some (zipped h file))
    (hreg : ∀ file ∈ rest, isReg file.mode = true) (hapart : (done ++ rest).Pairwise Apart) :
    (rest.map File.path).foldlM (stageFile h infos) (done.map File.permitted) =
      .ok ((done ++ rest).map File.permitted) := by
  induction rest generalizing done with
  | nil =>
    rw [List.append_nil]
    rfl
  | cons file rest ih =>
    have hfirst : ∀ f ∈ done, Apart f file := by
      intro f hf
      exact (List.pairwise_append.mp hapart).2.2 f hf file List.mem_cons_self
    have hstep := stageFile_eq (hget file List.mem_cons_self) (hreg file List.mem_cons_self) hfirst
    rw [List.append_cons] at hapart ⊢
    rw [List.map_cons, List.foldlM_cons, hstep]
    exact ih (fun f hf => hget f (List.mem_cons_of_mem _ hf))
      (fun f hf => hreg f (List.mem_cons_of_mem _ hf)) hapart

theorem sorted_files (files : List File) : ∃ sorted : List File,
    sorted.Perm files ∧ sorted.map File.path = sortedNames (files.map File.path) := by
  have hperm := List.mergeSort_perm files (fun a b => a.path ≤ b.path)
  have hsorted : ((files.mergeSort (fun a b => a.path ≤ b.path)).map File.path).Pairwise
      (· ≤ ·) := by
    rw [List.pairwise_map]
    have htotal : (files.mergeSort (fun a b => a.path ≤ b.path)).Pairwise
        (fun a b => decide (a.path ≤ b.path) = true) := by
      apply List.pairwise_mergeSort
      · intro a b c hab hbc
        exact decide_eq_true (le_trans (of_decide_eq_true hab) (of_decide_eq_true hbc))
      · intro a b
        simpa using le_total a.path b.path
    exact htotal.imp (fun hab => of_decide_eq_true hab)
  refine ⟨_, hperm, ?_⟩
  exact ((hperm.map File.path).trans (sortedNames_perm _).symm).eq_of_pairwise' hsorted
    (sortedNames_sorted _)

theorem stagedFiles_eq {first : File} (hfirst : first.path = bundleManifest)
    (he : Exported h w files) :
    ∃ staged, stagedFiles h ((first :: files).map (zipped h))
        ⟨workflowId, workflowName, sortedNames (files.map File.path)⟩ = .ok staged ∧
      staged.Perm (files.map File.permitted) := by
  obtain ⟨sorted, hperm, hpaths⟩ := sorted_files files
  have hnames : ((first :: files).map (zipped h)).map ZipInfo.filename =
      bundleManifest :: files.map File.path := by
    rw [zipped_filenames, List.map_cons, hfirst]
  have hget : ∀ file ∈ sorted, getinfo ((first :: files).map (zipped h)) file.path =
      some (zipped h file) := by
    intro file hfile
    have hmem : zipped h file ∈ (first :: files).map (zipped h) :=
      List.mem_map_of_mem (List.mem_cons_of_mem _ (hperm.mem_iff.mp hfile))
    have hnodup : (((first :: files).map (zipped h)).map ZipInfo.filename).Nodup := by
      rw [hnames]
      exact he.nodup
    exact getinfo_eq hmem hnodup
  have hreg : ∀ file ∈ sorted, isReg file.mode = true := by
    intro file hfile
    exact kept_isReg (he.perm.mem_iff.mp (hperm.mem_iff.mp hfile))
  have htogether : (sorted.map File.path).Pairwise (Together h) := by
    have hall := (List.pairwise_flatMap.mp (collisions_ok_iff.mp he.collisions).2).2
    have hfiles := (List.pairwise_cons.mp hall).2
    exact ((hperm.map File.path).pairwise_iff Together.symm).mpr hfiles
  have hapart : sorted.Pairwise Apart := by
    refine (List.pairwise_map.mp htogether).imp_of_mem ?_
    intro f g hf hg hfg
    have hvalid : ∀ file ∈ sorted, validBundlePath h file.path = true := by
      intro file hfile
      have hmem : file.path ∈ files.map File.path := List.mem_map_of_mem (hperm.mem_iff.mp hfile)
      exact he.valid _ (List.mem_cons_of_mem _ hmem)
    exact hfg.apart (hvalid f hf) (hvalid g hg)
  refine ⟨sorted.map File.permitted, ?_, hperm.map _⟩
  have hrun : (sorted.map File.path).foldlM (stageFile h ((first :: files).map (zipped h)))
      (([] : List File).map File.permitted) = .ok (([] ++ sorted).map File.permitted) :=
    stageFiles_eq hget hreg hapart
  rw [stagedFiles, ← hpaths]
  exact hrun

end Archive

/-! The whole trip. -/

def ImportsUnchanged (h : Host) (limits : ResourceLimits) (w : Workflow) (infos : List ZipInfo) :
    Prop :=
  validateArchive h limits infos = .ok () ∧
    ∃ preview staged, previewArchive h limits infos = .ok preview ∧
      stagedFiles h infos preview = .ok staged ∧
      staged.Perm ((w.kept h).map File.permitted) ∧ (staged.map File.path).Nodup

structure WithinLimits (h : Host) (limits : ResourceLimits) (w : Workflow) : Prop where
  fits : Fits h limits (w.archived h)
  metadata : (manifestFile h w ((w.kept h).map File.path)).content.length ≤
    limits.maxBundleMetadataBytes

variable {output : List Str}

theorem manifestFile_isLnk {included : List Str} :
    isLnk (manifestFile h w included).mode = false := by
  show isLnk 0o600 = false
  decide

theorem fits_of_imports (hexport : exportRattishBundle h w output = .ok infos)
    (himports : ImportsUnchanged h limits w infos) : Fits h limits (w.archived h) := by
  obtain ⟨files, he, hinfos⟩ := exported_of_ok hexport
  rw [hinfos] at himports
  exact ((validateArchive_iff rfl manifestFile_isLnk he).mp himports.1).perm (he.perm.cons _)

/-- A bundle that was exported is imported unchanged exactly if the workflow keeps the
limits, which the exporter does not check. -/
theorem exported_imports_iff (hexport : exportRattishBundle h w output = .ok infos)
    (hjson : h.loaded (manifestFile h w ((w.kept h).map File.path)).content =
      some (manifest w.workflowId w.name (sortedNames ((w.kept h).map File.path)))) :
    ImportsUnchanged h defaultResourceLimits w infos ↔
      WithinLimits h defaultResourceLimits w := by
  obtain ⟨files, he, hinfos⟩ := exported_of_ok hexport
  have hnames := sortedNames_eq (he.perm.map File.path)
  rw [← hnames] at hjson
  constructor
  · intro himports
    refine ⟨fits_of_imports hexport himports, ?_⟩
    obtain ⟨-, preview, staged, hpreview, -⟩ := himports
    rw [hinfos] at hpreview
    exact ((previewArchive_iff he rfl hjson).mp hpreview).1
  · intro hwithin
    have hfits := hwithin.fits.perm (he.perm.cons _).symm
    have hvalidate := (validateArchive_iff rfl manifestFile_isLnk he).mpr hfits
    have hpreview := (previewArchive_iff he rfl hjson).mpr ⟨hwithin.metadata, rfl⟩
    have hfirst : (manifestFile h w ((w.kept h).map File.path)).path = bundleManifest := rfl
    obtain ⟨staged, hstaged, hperm⟩ := stagedFiles_eq hfirst he
    have hkept : staged.Perm ((w.kept h).map File.permitted) := hperm.trans (he.perm.map _)
    rw [hinfos]
    refine ⟨hvalidate, _, staged, hpreview, hstaged, hkept, ?_⟩
    have hpaths : ((w.kept h).map File.permitted).map File.path = (w.kept h).map File.path := by
      rw [List.map_map]
      rfl
    rw [(hkept.map File.path).nodup_iff, hpaths]
    exact kept_nodup

section Solo

/-- The text of the manifest of a workflow `w` with the entrypoint alone. -/
@[irreducible] def soloText : Bytes :=
  (text "\x7b\n  \"format\": \"raticode-workflow\",\n  \"version\": 1,\n  \"workflowId\": \"w\",\n  \"workflowName\": \"w\",\n  \"files\": [\n    \"workflow.rattish\"\n  ]\n\x7d\n").map
    UInt8.ofNat

def soloManifest : Value := manifest (text "w") (text "w") [workflowEntrypoint]

def plainHost : Host where
  casefold := fun name => name.map (fun c => if 65 ≤ c ∧ c ≤ 90 then c + 32 else c)
  upper := fun name => name.map (fun c => if 97 ≤ c ∧ c ≤ 122 then c - 32 else c)
  fnmatchcase := fun name pattern => name = pattern
  dumped := fun _ => soloText
  loaded := fun content => if content = soloText then some soloManifest else none
  deflated := fun content => if content = [] then 2 else if content = soloText then 91 else 9732
  setOrder := List.dedup
  setOrder_perm := fun _ => List.Perm.refl _
  newMode := 0o644

def solo (content : Bytes) : Workflow where
  workflowId := text "w"
  name := text "w"
  workflowRoot := [text "solo"]
  items := [⟨workflowEntrypoint, .plain (.file content 0o644)⟩]
  nodup := List.nodup_singleton _

theorem solo_kept (content : Bytes) :
    (solo content).kept plainHost = [⟨workflowEntrypoint, content, 0o100644⟩] := by
  rfl

theorem solo_exports (content : Bytes) :
    exportRattishBundle plainHost (solo content) [text "out.raticode"] =
      .ok (((solo content).archived plainHost).map (zipped plainHost)) := by
  have hitems : sortedItems (solo content) = (solo content).items := List.mergeSort_singleton _
  have hfiles : portableWorkspaceFiles plainHost (solo content) =
      .ok ((solo content).kept plainHost) := by
    have hpatterns : (solo content).patterns = .ok [] := by rfl
    rw [portableWorkspaceFiles, hpatterns]
    show (collectFiles plainHost (solo content) [] (sortedItems (solo content)) >>= _) = _
    rw [hitems]
    rfl
  rw [exportRattishBundle, hfiles]
  rfl

theorem solo_refused {content : Bytes} (hlong : 10000000 < content.length) :
    ¬ImportsUnchanged plainHost defaultResourceLimits (solo content)
      (((solo content).archived plainHost).map (zipped plainHost)) := by
  intro himports
  have hfits := fits_of_imports (solo_exports content) himports
  have hmem : (⟨workflowEntrypoint, content, 0o100644⟩ : File) ∈
      (solo content).archived plainHost := by
    rw [Workflow.archived, solo_kept]
    exact List.mem_cons_of_mem _ (List.mem_singleton_self _)
  have hsize : content.length ≤ 10000000 := hfits.size _ hmem
  omega

theorem plainHost_loaded : plainHost.loaded soloText = some soloManifest := by
  simp [plainHost]

/-! A workflow with an older ignore file, and a draft that this leaves out. -/

@[irreducible] def mixedText : Bytes :=
  (text "\x7b\n  \"format\": \"raticode-workflow\",\n  \"version\": 1,\n  \"workflowId\": \"w\",\n  \"workflowName\": \"w\",\n  \"files\": [\n    \".raticodeignore\",\n    \"workflow.rattish\"\n  ]\n\x7d\n").map
    UInt8.ofNat

def mixedManifest : Value := manifest (text "w") (text "w") [workflowIgnore, workflowEntrypoint]

def ignoreText : Bytes := (text "draft.txt\n").map UInt8.ofNat

def mixedHost : Host :=
  { plainHost with
    dumped := fun _ => mixedText
    loaded := fun content => if content = mixedText then some mixedManifest else none
    deflated := fun content => if content = mixedText then 102 else if content = ignoreText then 12 else 4 }

def mixed : Workflow where
  workflowId := text "w"
  name := text "w"
  workflowRoot := [text "mixed"]
  items := [⟨text ".taskurottaignore", .plain (.file ignoreText 0o644)⟩,
    ⟨text "draft.txt", .plain (.file [0x78] 0o644)⟩, ⟨workflowEntrypoint, .plain (.file [0x6e, 0x0a] 0o644)⟩]
  nodup := by decide

theorem mixed_patterns : mixed.patterns = .ok [(text "draft.txt", false)] := by rfl

theorem mixed_kept : mixed.kept mixedHost =
    [⟨workflowIgnore, ignoreText, 0o100644⟩, ⟨workflowEntrypoint, [0x6e, 0x0a], 0o100644⟩] := by
  rw [Workflow.kept, mixed_patterns]
  rfl

theorem mixed_exports : exportRattishBundle mixedHost mixed [text "out.raticode"] =
    .ok ((mixed.archived mixedHost).map (zipped mixedHost)) := by
  have hitems : sortedItems mixed = mixed.items := List.mergeSort_of_pairwise (by decide)
  have hfiles : portableWorkspaceFiles mixedHost mixed = .ok (mixed.kept mixedHost) := by
    rw [portableWorkspaceFiles, mixed_patterns]
    show (collectFiles mixedHost mixed _ (sortedItems mixed) >>= _) = _
    rw [hitems, mixed_kept]
    rfl
  rw [exportRattishBundle, hfiles]
  rfl

theorem mixedText_length : mixedText.length = 160 := by decide +kernel

theorem mixed_json : mixedHost.loaded (manifestFile mixedHost mixed ((mixed.kept mixedHost).map File.path)).content =
    some (manifest mixed.workflowId mixed.name (sortedNames ((mixed.kept mixedHost).map File.path))) := by
  have hsorted : sortedNames [workflowIgnore, workflowEntrypoint] = [workflowIgnore, workflowEntrypoint] :=
    List.mergeSort_of_pairwise (by decide)
  rw [mixed_kept]
  show mixedHost.loaded mixedText =
    some (manifest (text "w") (text "w") (sortedNames [workflowIgnore, workflowEntrypoint]))
  rw [hsorted]
  simp [mixedHost, mixedManifest]

/-- The text and the ignore file, under its present name, come through unchanged. -/
theorem exported_imports_mixed : ImportsUnchanged mixedHost defaultResourceLimits mixed
    ((mixed.archived mixedHost).map (zipped mixedHost)) := by
  have hignore : ignoreText ≠ mixedText := fun h => absurd (congrArg List.length h) (by
    rw [mixedText_length]
    decide)
  have hcontent : ([0x6e, 0x0a] : Bytes) ≠ mixedText := fun h => absurd (congrArg List.length h) (by
    rw [mixedText_length]
    decide)
  refine (exported_imports_iff mixed_exports mixed_json).mpr ⟨⟨?_, ?_, ?_, ?_⟩, ?_⟩
  all_goals simp only [Workflow.archived, mixed_kept, List.forall_mem_cons]
  · decide
  · exact ⟨mixedText_length.le.trans (by decide), by decide, by decide, List.forall_mem_nil _⟩
  · refine ⟨.inr ?_, .inr ?_, .inr ?_, List.forall_mem_nil _⟩
    · exact mixedText_length.le.trans (by simp [mixedHost, manifestFile, defaultResourceLimits])
    · rw [show mixedHost.deflated ignoreText = 12 by simp [mixedHost, hignore]]
      decide
    · rw [show mixedHost.deflated [0x6e, 0x0a] = 4 by simp [mixedHost, hcontent, show ([0x6e, 0x0a] : Bytes) ≠ ignoreText by decide]]
      decide
  · show mixedText.length + _ ≤ 64000000
    rw [mixedText_length]
    decide
  · exact mixedText_length.le.trans (by decide)

/-- A file of more than ten million bytes is exported, and the bundle is refused. -/
theorem exported_oversized_refused :
    ∃ w infos, exportRattishBundle plainHost w [text "out.raticode"] = .ok infos ∧
      plainHost.loaded (plainHost.dumped soloManifest) = some soloManifest ∧
      ¬ImportsUnchanged plainHost defaultResourceLimits w infos := by
  have hlong : 10000000 < (List.replicate 10000001 (0 : UInt8)).length := by
    rw [List.length_replicate]
    omega
  exact ⟨_, _, solo_exports _, plainHost_loaded, solo_refused hlong⟩

end Solo

end Raticode.Bundle

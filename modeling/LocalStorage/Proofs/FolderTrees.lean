import Mathlib.Data.List.Chain
import LocalStorage.FolderTree
import LocalStorage.Sample

namespace LocalStorage.Proofs.FolderTrees
open Lib Lib.Text Web

/-! # Every file has one place at a level -/

/-- A key seen from a level: not below it, a file there, or a file below one of its folders. -/
inductive Spot (start key : List Char) : Prop where
  | outside (h : ∀ rest, rest ≠ [] → key ≠ start ++ rest)
  | here (name : List Char) (h : key = start ++ name) (hname : name ≠ []) (hslash : '/' ∉ name)
  | below (name rest : List Char) (h : key = start ++ (name ++ '/' :: rest)) (hslash : '/' ∉ name)

/-- The file is strictly below the level. -/
def Under (start : List Char) (file : FileInfo) : Bool :=
  start.isPrefixOf file.key.toList && decide (file.key.toList ≠ start)

/-- The file is shown at the level itself. -/
def Direct (start : List Char) (file : FileInfo) : Bool :=
  Under start file && decide ('/' ∉ file.key.toList.drop start.length)

/-- The file is below the folder. -/
def In (path : List Char) (file : FileInfo) : Bool := (path ++ ['/']).isPrefixOf file.key.toList

variable {start name name' rest rest' key path : List Char} {file : FileInfo}
  {files : List FileInfo} {level : Level} {folder : FolderItem}

theorem spot (start key : List Char) : Spot start key := by
  by_cases hstart : start <+: key
  · obtain ⟨relative, rfl⟩ := hstart
    by_cases hslash : '/' ∈ relative
    · cases hsplit : splitOnce '/' relative with
      | none => simp [splitOnce, hslash] at hsplit
      | some parts =>
        obtain ⟨name, rest⟩ := parts
        obtain ⟨rfl, hname⟩ := splitOnce_eq_some.mp hsplit
        exact .below name rest rfl hname
    · by_cases hrelative : relative = []
      · subst hrelative
        exact .outside fun rest hne heq => hne (List.append_cancel_left heq).symm
      · exact .here relative rfl hrelative hslash
  · exact .outside fun rest _ heq => hstart ⟨rest, heq.symm⟩

/-- What stands before the first slash is one thing only. -/
theorem name_unique (h : name ++ '/' :: rest = name' ++ '/' :: rest') (hname : '/' ∉ name)
    (hname' : '/' ∉ name') : name = name' := by
  have hleft : splitOnce '/' (name ++ '/' :: rest) = some (name, rest) :=
    splitOnce_eq_some.mpr ⟨rfl, hname⟩
  have hright : splitOnce '/' (name ++ '/' :: rest) = some (name', rest') :=
    splitOnce_eq_some.mpr ⟨h, hname'⟩
  rw [hleft, Option.some.injEq, Prod.mk.injEq] at hright
  exact hright.1

theorem under_iff : Under start file = true ↔ ∃ rest, rest ≠ [] ∧ file.key.toList = start ++ rest := by
  simp only [Under, Bool.and_eq_true, List.isPrefixOf_iff_prefix, decide_eq_true_eq]
  constructor
  · rintro ⟨⟨rest, hrest⟩, hne⟩
    refine ⟨rest, ?_, hrest.symm⟩
    rintro rfl
    exact hne (by rw [← hrest, List.append_nil])
  · rintro ⟨rest, hne, hkey⟩
    refine ⟨⟨rest, hkey.symm⟩, fun heq => hne ?_⟩
    rw [hkey] at heq
    exact List.append_right_eq_self.mp heq

theorem in_iff : In path file = true ↔ ∃ rest, file.key.toList = path ++ '/' :: rest := by
  simp only [In, List.isPrefixOf_iff_prefix]
  constructor
  · rintro ⟨rest, hrest⟩
    exact ⟨rest, by rw [← hrest, List.append_assoc, List.singleton_append]⟩
  · rintro ⟨rest, hrest⟩
    exact ⟨rest, by rw [hrest, List.append_assoc, List.singleton_append]⟩

theorem filesToDelete_eq : filesToDelete files folder = files.filter (In folder.path) := rfl

theorem direct_iff : Direct start file = true ↔
    ∃ name, file.key.toList = start ++ name ∧ name ≠ [] ∧ '/' ∉ name := by
  simp only [Direct, Bool.and_eq_true, under_iff, decide_eq_true_eq]
  constructor
  · rintro ⟨⟨name, hname, hkey⟩, hslash⟩
    rw [hkey, List.drop_left] at hslash
    exact ⟨name, hkey, hname, hslash⟩
  · rintro ⟨name, hkey, hname, hslash⟩
    exact ⟨⟨name, hname, hkey⟩, by rwa [hkey, List.drop_left]⟩

/-! ## One file -/

theorem placeFile_outside (h : ∀ rest, rest ≠ [] → file.key.toList ≠ start ++ rest) :
    placeFile start level file = level := by
  unfold placeFile
  cases hstrip : stripPrefix start file.key.toList with
  | none => rfl
  | some relative =>
    have hkey := stripPrefix_eq_some.mp hstrip
    have hnil : relative = [] := by
      by_contra hne
      exact h relative hne hkey
    simp [hnil]

theorem placeFile_here (h : file.key.toList = start ++ name) (hname : name ≠ [])
    (hslash : '/' ∉ name) : placeFile start level file =
      { level with files := level.files ++ [⟨name, file.key.toList, file⟩] } := by
  have hsplit : splitOnce '/' name = none := by simp [splitOnce, hslash]
  simp only [placeFile, stripPrefix_eq_some.mpr h, if_neg hname, hsplit]

theorem placeFile_below (h : file.key.toList = start ++ (name ++ '/' :: rest))
    (hslash : '/' ∉ name) : placeFile start level file =
      { level with
        folders := Tallies.enter FolderItem.path (countFile file)
          (newFolder name (start ++ name) file) level.folders } := by
  have hsplit : splitOnce '/' (name ++ '/' :: rest) = some (name, rest) :=
    splitOnce_eq_some.mpr ⟨rfl, hslash⟩
  have hne : name ++ '/' :: rest ≠ [] := by simp
  simp only [placeFile, stripPrefix_eq_some.mpr h, if_neg hne, hsplit]

/-! ## The loop -/

/-- The number and the size of the files below a folder. -/
structure Counted (start : List Char) (files : List FileInfo) (folder : FolderItem) : Prop where
  path : folder.path = start ++ folder.name
  name : '/' ∉ folder.name
  inhabited : 0 < folder.fileCount
  fileCount : folder.fileCount = (filesToDelete files folder).length
  totalSize : folder.totalSize = ((filesToDelete files folder).map (·.fileSize)).sum

/-- The level shows every file below it once, as itself or in the figures of one folder. -/
structure Shows (start : List Char) (files : List FileInfo) (level : Level) : Prop where
  distinct : (level.folders.map (·.path)).Nodup
  counted : ∀ folder ∈ level.folders, Counted start files folder
  found : ∀ file ∈ files, ∀ name rest, file.key.toList = start ++ (name ++ '/' :: rest) →
    '/' ∉ name → ∃ folder ∈ level.folders, folder.path = start ++ name
  direct : level.files.map (·.file) = files.filter (Direct start)
  entries : ∀ entry ∈ level.files, entry.path = entry.file.key.toList ∧
    entry.path = start ++ entry.name ∧ entry.name ≠ [] ∧ '/' ∉ entry.name
  total : (level.folders.map (·.fileCount)).sum + level.files.length =
    (files.filter (Under start)).length

theorem Shows.nil (start : List Char) : Shows start [] ⟨[], []⟩ :=
  ⟨.nil, by simp, by simp, rfl, by simp, rfl⟩

/-- A file that is below no folder of the level changes no figure. -/
theorem Counted.skip (h : Counted start files folder)
    (hout : ∀ name rest, '/' ∉ name → file.key.toList ≠ start ++ (name ++ '/' :: rest)) :
    Counted start (files ++ [file]) folder := by
  have hnot : In folder.path file = false := by
    rw [← Bool.not_eq_true, in_iff]
    rintro ⟨rest, hrest⟩
    rw [h.path, List.append_assoc] at hrest
    exact hout folder.name rest h.name hrest
  have hsame : (files ++ [file]).filter (In folder.path) = files.filter (In folder.path) := by
    simp [List.filter_append, hnot]
  exact ⟨h.path, h.name, h.inhabited, by rw [filesToDelete_eq, hsame]; exact h.fileCount,
    by rw [filesToDelete_eq, hsame]; exact h.totalSize⟩

theorem Counted.skip_other (h : Counted start files folder)
    (hkey : file.key.toList = start ++ (name ++ '/' :: rest)) (hslash : '/' ∉ name)
    (hne : folder.path ≠ start ++ name) : Counted start (files ++ [file]) folder := by
  have hnot : In folder.path file = false := by
    rw [← Bool.not_eq_true, in_iff]
    rintro ⟨rest', hrest⟩
    rw [h.path, List.append_assoc, hkey] at hrest
    have hname := name_unique (List.append_cancel_left hrest) hslash h.name
    exact hne (by rw [h.path, hname])
  have hsame : (files ++ [file]).filter (In folder.path) = files.filter (In folder.path) := by
    simp [List.filter_append, hnot]
  exact ⟨h.path, h.name, h.inhabited, by rw [filesToDelete_eq, hsame]; exact h.fileCount,
    by rw [filesToDelete_eq, hsame]; exact h.totalSize⟩

theorem Counted.grown (h : Counted start files folder)
    (hkey : file.key.toList = start ++ (name ++ '/' :: rest)) (hpath : folder.path = start ++ name) :
    Counted start (files ++ [file]) (countFile file folder) := by
  have hin : In folder.path file = true :=
    in_iff.mpr ⟨rest, by rw [hkey, hpath, List.append_assoc]⟩
  have hsame : (files ++ [file]).filter (In folder.path) = files.filter (In folder.path) ++ [file] := by
    simp [List.filter_append, hin]
  refine ⟨h.path, h.name, Nat.succ_pos _, ?_, ?_⟩
  · simp only [filesToDelete_eq, countFile, hsame, List.length_append, List.length_singleton,
      h.fileCount]
  · simp only [filesToDelete_eq, countFile, hsame, List.map_append, List.sum_append, h.totalSize]
    simp

theorem Counted.first (hkey : file.key.toList = start ++ (name ++ '/' :: rest))
    (hslash : '/' ∉ name) (hnone : ∀ f ∈ files, In (start ++ name) f = false) :
    Counted start (files ++ [file]) (newFolder name (start ++ name) file) := by
  have hin : In (start ++ name) file = true :=
    in_iff.mpr ⟨rest, by rw [hkey, List.append_assoc]⟩
  have honly : (files ++ [file]).filter (In (start ++ name)) = [file] := by
    have hnil : files.filter (In (start ++ name)) = [] := by
      rw [List.filter_eq_nil_iff]
      intro f hf
      simp [hnone f hf]
    simp [List.filter_append, hin, hnil]
  refine ⟨rfl, hslash, Nat.one_pos, ?_, ?_⟩
  · simp only [filesToDelete_eq, newFolder, honly, List.length_singleton]
  · simp only [filesToDelete_eq, newFolder, honly, List.map_singleton, List.sum_singleton]

theorem Shows.place (h : Shows start files level) (file : FileInfo) :
    Shows start (files ++ [file]) (placeFile start level file) := by
  have hfound : ∀ f ∈ files, ∀ name rest, f.key.toList = start ++ (name ++ '/' :: rest) →
      '/' ∉ name → ∃ folder ∈ level.folders, folder.path = start ++ name := h.found
  cases spot start file.key.toList with
  | outside hout =>
    rw [placeFile_outside hout]
    have hnot : Under start file = false := by
      rw [← Bool.not_eq_true, under_iff]
      rintro ⟨rest, hne, hkey⟩
      exact hout rest hne hkey
    have hdirect : Direct start file = false := by simp [Direct, hnot]
    refine ⟨h.distinct, fun folder hf => (h.counted folder hf).skip fun name rest _ => hout _ (by simp),
      fun f hf name rest hkey hslash => ?_, ?_, h.entries, ?_⟩
    · obtain hf | hf := List.mem_append.mp hf
      · exact hfound f hf name rest hkey hslash
      · obtain rfl := List.mem_singleton.mp hf
        exact absurd hkey (hout _ (by simp))
    · simp [List.filter_append, hdirect, h.direct]
    · simp [List.filter_append, hnot, h.total]
  | here name hkey hname hslash =>
    rw [placeFile_here hkey hname hslash]
    have hunder : Under start file = true := under_iff.mpr ⟨name, hname, hkey⟩
    have hdirect : Direct start file = true := direct_iff.mpr ⟨name, hkey, hname, hslash⟩
    have hout : ∀ n rest, '/' ∉ n → file.key.toList ≠ start ++ (n ++ '/' :: rest) := by
      intro n rest _ heq
      rw [hkey] at heq
      exact hslash (by rw [List.append_cancel_left heq]; simp)
    refine ⟨h.distinct, fun folder hf => (h.counted folder hf).skip hout,
      fun f hf n rest hf' hn => ?_, ?_, fun entry he => ?_, ?_⟩
    · obtain hf | hf := List.mem_append.mp hf
      · exact hfound f hf n rest hf' hn
      · obtain rfl := List.mem_singleton.mp hf
        exact absurd hf' (hout n rest hn)
    · simp [List.filter_append, hdirect, h.direct]
    · obtain he | he := List.mem_append.mp he
      · exact h.entries entry he
      · obtain rfl := List.mem_singleton.mp he
        exact ⟨rfl, hkey, hname, hslash⟩
    · have htotal := h.total
      simp only [List.filter_append, List.length_append, List.length_singleton, hunder,
        List.filter_cons_of_pos, List.filter_nil]
      omega
  | below name rest hkey hslash =>
    rw [placeFile_below hkey hslash]
    have hunder : Under start file = true := under_iff.mpr ⟨_, by simp, hkey⟩
    have hdirect : Direct start file = false := by
      rw [← Bool.not_eq_true, direct_iff]
      rintro ⟨n, hn, -, hns⟩
      rw [hkey] at hn
      exact hns (by rw [← List.append_cancel_left hn]; simp)
    have hkept : ∀ path, path = start ++ name ∨ path ∈ level.folders.map (·.path) →
        path ∈ (Tallies.enter FolderItem.path (countFile file)
          (newFolder name (start ++ name) file) level.folders).map (·.path) := by
      intro path hpath
      have hgrow : ∀ folder, (countFile file folder).path = folder.path := fun _ => rfl
      rw [show (Tallies.enter FolderItem.path (countFile file)
        (newFolder name (start ++ name) file) level.folders).map (·.path) = _ from
          Tallies.map_key_enter hgrow]
      split
      · rename_i hold
        obtain rfl | hpath := hpath
        · exact hold
        · exact hpath
      · obtain rfl | hpath := hpath
        · exact List.mem_append_right _ (List.mem_singleton.mpr rfl)
        · exact List.mem_append_left _ hpath
    refine ⟨Tallies.nodup_enter (fun _ => rfl) h.distinct, fun folder hf => ?_,
      fun f hf n rest' hf' hn => ?_, ?_, h.entries, ?_⟩
    · obtain ⟨hold, hne⟩ | ⟨old, hold, hsame, rfl⟩ | ⟨hnone, rfl⟩ :=
        Tallies.mem_enter h.distinct hf
      · exact (h.counted folder hold).skip_other hkey hslash hne
      · exact (h.counted old hold).grown hkey hsame
      · refine .first hkey hslash fun f hf => ?_
        rw [← Bool.not_eq_true, in_iff]
        rintro ⟨rest', hrest⟩
        rw [List.append_assoc] at hrest
        obtain ⟨folder, hfolder, hpath⟩ := hfound f hf name rest' hrest hslash
        exact hnone folder hfolder hpath
    · have hpath : start ++ n ∈ (Tallies.enter FolderItem.path (countFile file)
          (newFolder name (start ++ name) file) level.folders).map (·.path) := by
        obtain hf | hf := List.mem_append.mp hf
        · obtain ⟨folder, hfolder, hpath⟩ := hfound f hf n rest' hf' hn
          exact hkept _ (.inr (List.mem_map.mpr ⟨folder, hfolder, hpath⟩))
        · obtain rfl := List.mem_singleton.mp hf
          rw [hkey] at hf'
          exact hkept _ (.inl (by rw [name_unique (List.append_cancel_left hf') hslash hn]))
      obtain ⟨folder, hfolder, hpath⟩ := List.mem_map.mp hpath
      exact ⟨folder, hfolder, hpath⟩
    · simp [List.filter_append, hdirect, h.direct]
    · have htotal := h.total
      have hsum : ((Tallies.enter FolderItem.path (countFile file)
          (newFolder name (start ++ name) file) level.folders).map (·.fileCount)).sum =
            (level.folders.map (·.fileCount)).sum + 1 := Tallies.sum_enter (fun _ => rfl) rfl
      simp only [List.filter_append, List.length_append, hunder, List.filter_cons_of_pos,
        List.filter_nil, List.length_singleton, hsum]
      omega

/-- Whatever is listed: a level shows each file below it exactly once, as an entry or in the
figures of one folder, and these figures are those of the files that deleting the folder
deletes. -/
theorem buildFileTree_shows (files : List FileInfo) (currentPath : List Char) :
    Shows (pathPrefix currentPath) files (buildFileTree files currentPath) := by
  unfold buildFileTree
  induction files using List.reverseRecOn with
  | nil => exact .nil _
  | append_singleton files file ih =>
    rw [List.foldl_append]
    exact ih.place file

/-! ## What can be reached -/

/-- The paths that can be come to by opening one folder after another. -/
inductive Opened (files : List FileInfo) : List Char → Prop where
  | home : Opened files []
  | folder {path : List Char} {folder : FolderItem} : Opened files path →
      folder ∈ (buildFileTree files path).folders → Opened files folder.path

/-- Some level that can be opened has the file as an entry. -/
def Shown (files : List FileInfo) (file : FileInfo) : Prop :=
  ∃ path, Opened files path ∧ file ∈ (buildFileTree files path).files.map (·.file)

theorem mem_level_iff : file ∈ (buildFileTree files path).files.map (·.file) ↔
    file ∈ files ∧ Direct (pathPrefix path) file = true := by
  rw [(buildFileTree_shows files path).direct, List.mem_filter]

theorem pathPrefix_nil : pathPrefix [] = [] := rfl

theorem pathPrefix_of_ne (h : path ≠ []) : pathPrefix path = path ++ ['/'] := if_neg h

/-- A path that was opened does not begin with a slash. -/
theorem Opened.head (h : Opened files path) : path.head? ≠ some '/' := by
  induction h with
  | home => simp
  | @folder path folder hopened hfolder ih =>
    have hcounted := (buildFileTree_shows files path).counted folder hfolder
    rw [hcounted.path]
    cases path with
    | nil =>
      rw [pathPrefix_nil, List.nil_append]
      intro hhead
      exact hcounted.name (List.mem_of_head? hhead)
    | cons c path =>
      rw [pathPrefix_of_ne (by simp)]
      simpa using ih

/-- The folder of a file below an opened path can be opened. -/
theorem Opened.step (h : Opened files path) (hfile : file ∈ files)
    (hkey : file.key.toList = pathPrefix path ++ (name ++ '/' :: rest)) (hslash : '/' ∉ name) :
    Opened files (pathPrefix path ++ name) := by
  obtain ⟨folder, hfolder, hpath⟩ :=
    (buildFileTree_shows files path).found file hfile name rest hkey hslash
  exact hpath ▸ h.folder hfolder

/-- From a level that was opened, one gets to every file below it whose key has a name after its
last slash. At the root the first folder has to have a name, too: an empty one leads nowhere. -/
theorem Opened.shows (hfile : file ∈ files) (hlast : file.key.toList.getLast? ≠ some '/')
    {n : Nat} (h : Opened files path) (hlength : rest.length ≤ n)
    (hkey : file.key.toList = pathPrefix path ++ rest) (hrest : rest ≠ [])
    (hhead : path = [] → rest.head? ≠ some '/') : Shown files file := by
  induction n generalizing path rest with
  | zero => exact absurd (List.length_eq_zero_iff.mp (Nat.le_zero.mp hlength)) hrest
  | succ n ih =>
    by_cases hslash : '/' ∈ rest
    · cases hsplit : splitOnce '/' rest with
      | none => simp [splitOnce, hslash] at hsplit
      | some parts =>
        obtain ⟨name, later⟩ := parts
        obtain ⟨rfl, hname⟩ := splitOnce_eq_some.mp hsplit
        have hopened := h.step hfile hkey hname
        have hne : pathPrefix path ++ name ≠ [] := by
          intro hnil
          obtain ⟨hstart, rfl⟩ := List.append_eq_nil_iff.mp hnil
          by_cases hpath : path = []
          · exact hhead hpath (by simp)
          · rw [pathPrefix_of_ne hpath] at hstart
            simp at hstart
        have hkey' : file.key.toList = pathPrefix (pathPrefix path ++ name) ++ later := by
          rw [pathPrefix_of_ne hne, hkey]
          simp
        refine ih hopened ?_ hkey' ?_ fun hnil => absurd hnil hne
        · simp only [List.length_append, List.length_cons] at hlength
          omega
        · rintro rfl
          exact hlast (by rw [hkey]; simp)
    · exact ⟨path, h, mem_level_iff.mpr ⟨hfile, direct_iff.mpr ⟨rest, hkey, hrest, hslash⟩⟩⟩

/-- A listed file can be found in the tree exactly when its key is not empty and neither begins
nor ends with a slash. -/
theorem file_shown_iff (hfile : file ∈ files) : Shown files file ↔ file.key.toList ≠ [] ∧
    file.key.toList.head? ≠ some '/' ∧ file.key.toList.getLast? ≠ some '/' := by
  constructor
  · rintro ⟨path, hopened, hlevel⟩
    obtain ⟨name, hkey, hname, hslash⟩ := direct_iff.mp (mem_level_iff.mp hlevel).2
    have hlast : file.key.toList.getLast? ≠ some '/' := by
      rw [hkey, List.getLast?_append_of_ne_nil _ hname]
      exact fun hmem => hslash (List.mem_of_getLast? hmem)
    refine ⟨by simp [hkey, hname], ?_, hlast⟩
    by_cases hpath : path = []
    · subst hpath
      rw [hkey, pathPrefix_nil, List.nil_append]
      exact fun hmem => hslash (List.mem_of_head? hmem)
    · rw [hkey, pathPrefix_of_ne hpath, List.append_assoc, List.head?_append_of_ne_nil _ hpath]
      exact hopened.head
  · rintro ⟨hne, hhead, hlast⟩
    exact Opened.shows hfile hlast .home (le_refl _) rfl hne fun _ => hhead

/-- A file of one byte, as it is listed. -/
def listed (key : String) : FileInfo :=
  .ofStored (Sample.manager.freshFile "b" key [120] none {} false 1 [120] false 0 0)

theorem shown_sample : Shown [listed "a/x", listed "y"] (listed "a/x") :=
  (file_shown_iff (by simp)).mpr (by decide)

/-! ## The way back -/

/-- No part of the path between slashes is empty. -/
def Named (path : List Char) : Prop := path ≠ [] → ∀ part ∈ path.splitOn '/', part ≠ []

/-- The second path is that of a folder on the level of the first. -/
def Child (files : List FileInfo) (path path' : List Char) : Prop :=
  ∃ folder ∈ (buildFileTree files path).folders, folder.path = path'

/-- The paths that the breadcrumbs lead to. -/
def trail (path : List Char) : List (List Char) := (breadcrumbs path).map Prod.snd

theorem trail_eq (path : List Char) :
    trail path = ((path.splitOn '/').filter (· ≠ [])).inits.map ['/'].intercalate := by
  simp only [trail, breadcrumbs, List.map_cons]
  generalize (path.splitOn '/').filter (· ≠ []) = parts
  refine List.ext_getElem (by simp) fun i hi hi' => ?_
  cases i with
  | zero => simp
  | succ i => simp

theorem trail_nil : trail [] = [[]] := by simp [trail_eq]

theorem trail_part (hname : name ≠ []) (hslash : '/' ∉ name) : trail name = [[], name] := by
  simp [trail_eq, List.splitOn_eq_singleton hslash, hname]

theorem trail_below (hpath : Named path) (hne : path ≠ []) (hname : name ≠ []) (hslash : '/' ∉ name) :
    trail (path ++ '/' :: name) = trail path ++ [path ++ '/' :: name] := by
  have hparts : (path.splitOn '/').filter (· ≠ []) = path.splitOn '/' :=
    List.filter_eq_self.mpr fun part hpart => by simp [hpath hne part hpart]
  have hsplit : (path ++ '/' :: name).splitOn '/' = path.splitOn '/' ++ [name] := by
    rw [List.splitOn_append_cons_self, List.splitOn_eq_singleton hslash]
  have hlast : ['/'].intercalate (path.splitOn '/' ++ [name]) = path ++ '/' :: name := by
    rw [← hsplit, List.intercalate_splitOn]
  rw [trail_eq, trail_eq, hsplit, List.filter_append, hparts, List.inits_append]
  simp [hname, hlast]

theorem Named.below (h : Named (path ++ '/' :: name)) (hslash : '/' ∉ name) :
    Named path ∧ name ≠ [] := by
  have hall := h (by simp)
  rw [List.splitOn_append_cons_self, List.splitOn_eq_singleton hslash] at hall
  exact ⟨fun _ part hpart => hall part (List.mem_append_left _ hpart),
    hall name (List.mem_append_right _ (List.mem_singleton.mpr rfl))⟩

/-- The breadcrumbs of an opened path whose parts all have names lead back along the folders that
were opened, from the root to the path itself. -/
theorem trail_opened (h : Opened files path) (hnamed : Named path) :
    (trail path).IsChain (Child files) ∧ (trail path).getLast? = some path := by
  induction h with
  | home => simp [trail_nil]
  | @folder path folder hopened hfolder ih =>
    have hcounted := (buildFileTree_shows files path).counted folder hfolder
    have hpath := hcounted.path
    by_cases hroot : path = []
    · subst hroot
      rw [pathPrefix_nil, List.nil_append] at hpath
      rw [hpath] at hnamed ⊢
      by_cases hname : folder.name = []
      · simp [hname, trail_nil]
      · rw [trail_part hname hcounted.name]
        exact ⟨by simpa using ⟨folder, hfolder, hpath⟩, rfl⟩
    · rw [pathPrefix_of_ne hroot, List.append_assoc, List.singleton_append] at hpath
      rw [hpath] at hnamed ⊢
      obtain ⟨hbefore, hname⟩ := hnamed.below hcounted.name
      obtain ⟨hchain, hlast⟩ := ih hbefore
      rw [trail_below hbefore hroot hname hcounted.name]
      refine ⟨hchain.append (List.isChain_singleton _) ?_, List.getLast?_concat⟩
      intro from' hfrom to' hto
      rw [hlast, Option.mem_def, Option.some.injEq] at hfrom
      rw [List.head?_singleton, Option.mem_def, Option.some.injEq] at hto
      subst hfrom hto
      exact ⟨folder, hfolder, hpath⟩

theorem trail_sample : (trail ['a']).IsChain (Child [listed "a/x", listed "y"]) ∧
    (trail ['a']).getLast? = some ['a'] := by
  have hfolder : ⟨['a'], ['a'], 1, 1⟩ ∈ (buildFileTree [listed "a/x", listed "y"] []).folders := by
    decide
  exact trail_opened (.folder .home hfolder) fun _ => by decide

end LocalStorage.Proofs.FolderTrees

import LocalStorage.Proofs.Listings
import LocalStorage.S3

namespace LocalStorage.Proofs.Prefixes
open Lib StorageManager Database Listings

/-! # Prefixes that the database reads as patterns -/

/-- No character that a pattern gives a meaning of its own. -/
def Plain (p : List Char) : Prop := ∀ c ∈ p, c ≠ '%' ∧ c ≠ '_' ∧ c ≠ '\\'

/-- The pattern and the prefix disagree on the key. -/
def ToldApart (p key : String) : Prop :=
  ¬ (like (p.toList ++ ['%']) key.toList = true ↔ p.toList <+: key.toList)

variable {c x : Char} {p s t : List Char}

theorem like_percent : like ('%' :: p) s = true ↔ ∃ rest, rest <:+ s ∧ like p rest = true := by
  simp [like]

theorem like_underscore : like ('_' :: p) (x :: t) = like p t := by
  simp [like]

theorem like_escape : like ('\\' :: c :: p) (x :: t) = (x == c && like p t) := by
  simp [like]

theorem like_plain (hc : c ≠ '%' ∧ c ≠ '_' ∧ c ≠ '\\') :
    like (c :: p) s = true ↔ ∃ t, s = c :: t ∧ like p t = true := by
  obtain ⟨hpercent, hunderscore, hescape⟩ := hc
  have hpair : ∀ d q, c = '\\' → p = d :: q → False := fun _ _ h _ => hescape h
  cases s with
  | nil =>
    rw [like.eq_7 c p hpercent hunderscore hpair]
    simp
  | cons x t =>
    rw [like.eq_8 c p x t hpercent hunderscore hpair]
    simp [and_assoc]

theorem like_plain_append {u : List Char} (hu : Plain u) :
    like (u ++ p) s = true ↔ ∃ t, s = u ++ t ∧ like p t = true := by
  induction u generalizing s with
  | nil => simp
  | cons c u ih =>
    rw [List.cons_append, like_plain (hu c List.mem_cons_self)]
    have hrest : Plain u := fun d hd => hu d (List.mem_cons_of_mem c hd)
    simp only [ih hrest]
    constructor
    · rintro ⟨_, rfl, t, rfl, ht⟩
      exact ⟨t, rfl, ht⟩
    · rintro ⟨t, rfl, ht⟩
      exact ⟨_, rfl, t, rfl, ht⟩

theorem like_everything : like ['%'] s = true :=
  like_percent.mpr ⟨[], List.nil_suffix, rfl⟩

/-- A plain prefix is read as it stands. -/
theorem like_of_plain (hp : Plain p) : like (p ++ ['%']) s = true ↔ p <+: s := by
  rw [like_plain_append hp]
  constructor
  · rintro ⟨t, rfl, -⟩
    exact List.prefix_append p t
  · rintro ⟨t, rfl⟩
    exact ⟨t, rfl, like_everything⟩

/-- Every prefix matches something that is no longer than itself. -/
theorem exists_like (v : List Char) : ∃ t, like (v ++ ['%']) t = true ∧ t.length ≤ v.length := by
  induction hn : v.length using Nat.strongRecOn generalizing v with
  | _ n ih =>
    subst hn
    match v with
    | [] => exact ⟨[], like_everything, Nat.le_refl 0⟩
    | c :: v =>
      obtain ⟨t, ht, hlen⟩ := ih v.length (Nat.lt_succ_self _) v rfl
      by_cases hpercent : c = '%'
      · subst hpercent
        exact ⟨t, like_percent.mpr ⟨t, List.suffix_refl t, ht⟩, Nat.le_succ_of_le hlen⟩
      · by_cases hunderscore : c = '_'
        · subst hunderscore
          exact ⟨'a' :: t, by rwa [List.cons_append, like_underscore], Nat.succ_le_succ hlen⟩
        · by_cases hescape : c = '\\'
          · subst hescape
            match v with
            | [] => exact ⟨['%'], by decide, Nat.le_refl 1⟩
            | d :: v =>
              obtain ⟨t', ht', hlen'⟩ := ih v.length (by simp only [List.length_cons]; omega) v rfl
              refine ⟨d :: t', ?_, ?_⟩
              · rw [List.cons_append, List.cons_append, like_escape]
                simpa using ht'
              · simp only [List.length_cons]
                omega
          · exact ⟨c :: t, (like_plain ⟨hpercent, hunderscore, hescape⟩).mpr ⟨t, rfl, ht⟩,
              Nat.succ_le_succ hlen⟩

theorem exists_special (h : ¬ Plain p) :
    ∃ u c v, p = u ++ c :: v ∧ Plain u ∧ (c = '%' ∨ c = '_' ∨ c = '\\') := by
  induction p with
  | nil =>
    exfalso
    apply h
    intro c hc
    cases hc
  | cons c p ih =>
    by_cases hc : c ≠ '%' ∧ c ≠ '_' ∧ c ≠ '\\'
    · have hrest : ¬ Plain p := by
        intro hp
        apply h
        intro d hd
        rcases List.mem_cons.mp hd with rfl | hd
        · exact hc
        · exact hp d hd
      obtain ⟨u, d, v, rfl, hu, hd⟩ := ih hrest
      refine ⟨c :: u, d, v, rfl, ?_, hd⟩
      intro e he
      rcases List.mem_cons.mp he with rfl | he
      · exact hc
      · exact hu e he
    · refine ⟨[], c, p, rfl, ?_, ?_⟩
      · intro d hd
        cases hd
      · by_contra hno
        simp only [not_or] at hno
        exact hc hno

/-- A prefix with such a character matches a key that does not start with it. -/
theorem exists_match (h : ¬ Plain p) :
    ∃ s, s ≠ [] ∧ s.length ≤ p.length ∧ like (p ++ ['%']) s = true ∧ ¬ p <+: s := by
  obtain ⟨u, c, v, rfl, hu, hc⟩ := exists_special h
  have hreduce : ∀ t, like (c :: v ++ ['%']) t = true →
      like (u ++ c :: v ++ ['%']) (u ++ t) = true := by
    intro t ht
    rw [List.append_assoc]
    exact (like_plain_append hu).mpr ⟨t, rfl, ht⟩
  have hother : ∀ d t, d ≠ c → ¬ u ++ c :: v <+: u ++ d :: t := by
    intro d t hne hprefixed
    exact hne (List.cons_prefix_cons.mp ((List.prefix_append_right_inj u).mp hprefixed)).1.symm
  obtain ⟨t, ht, hlen⟩ := exists_like v
  rcases hc with rfl | rfl | rfl
  · refine ⟨u ++ 'a' :: t, by simp, ?_, hreduce _ ?_, hother _ _ (by decide)⟩
    · simpa using hlen
    · exact like_percent.mpr ⟨t, List.suffix_cons 'a' t, ht⟩
  · refine ⟨u ++ 'a' :: t, by simp, ?_, hreduce _ ?_, hother _ _ (by decide)⟩
    · simpa using hlen
    · rwa [List.cons_append, like_underscore]
  · match v with
    | [] => exact ⟨u ++ ['%'], by simp, by simp, hreduce _ (by decide), hother _ _ (by decide)⟩
    | d :: v =>
      -- the escaped character stands for itself, so what matches is shorter than the prefix
      obtain ⟨t', ht', hlen'⟩ := exists_like v
      refine ⟨u ++ d :: t', by simp, ?_, hreduce _ ?_, ?_⟩
      · simp only [List.length_append, List.length_cons]
        omega
      · rw [List.cons_append, List.cons_append, like_escape]
        simpa using ht'
      · intro hprefixed
        have hle := hprefixed.length_le
        simp only [List.length_append, List.length_cons] at hle
        omega

theorem plain_iff {keyPrefix : String} :
    (∀ key, ¬ ToldApart keyPrefix key) ↔ Plain keyPrefix.toList := by
  constructor
  · intro hnone
    by_contra hp
    obtain ⟨s, -, -, hlike, hstarts⟩ := exists_match hp
    apply hnone (String.ofList s)
    simp only [ToldApart, String.toList_ofList, hlike, true_iff]
    exact hstarts
  · intro hp key htold
    exact htold (like_of_plain hp)

/-! ## Listings under a prefix -/

variable {sm : StorageManager} {w : World} {b keyPrefix : String}

/-- The rows of the bucket whose key starts with the prefix, character for character. -/
def starting (w : World) (b keyPrefix : String) : List StoredFile :=
  w.db.files.rows.filter fun f => f.bucket = b && keyPrefix.toList.isPrefixOf f.key.toList

/-- The rows of the bucket. -/
def bucketRows (w : World) (b : String) : List StoredFile :=
  w.db.files.rows.filter (·.bucket = b)

/-- A listing without a limit that cuts it off shows the rows that start with the prefix,
newest first, from the offset on. -/
def ListsPrefix (sm : StorageManager) (w : World) (b keyPrefix : String) : Prop :=
  ∀ (limit offset : Nat) infos u, (bucketRows w b).length ≤ limit →
    (listFiles b (some keyPrefix) (some limit) (some offset)).Runs (exec sm.host) w (.ok infos) u →
      ∃ files, Paging.Listing uploaded (starting w b keyPrefix) files ∧
        infos = (files.drop offset).map FileInfo.ofStored

/-- An answer to `ListObjectsV2` that is not truncated names their keys. -/
def ShowsPrefix (sm : StorageManager) (w : World) (b keyPrefix : String) : Prop :=
  ∀ verified maxKeys response result u,
    (S3.listObjectsV2 verified b ⟨some keyPrefix, maxKeys⟩).Runs (exec sm.host) w (.ok response) u →
    response.body = .listing result → result.isTruncated = false →
      (result.contents.map (·.key)).Perm ((starting w b keyPrefix).map (·.key))

/-- No key of the bucket is one on which the two readings of the prefix differ. -/
def ReadsAlike (w : World) (b keyPrefix : String) : Prop :=
  ∀ f ∈ w.db.files, f.bucket = b → ¬ ToldApart keyPrefix f.key

theorem matching_eq_starting (h : ReadsAlike w b keyPrefix) :
    matching w b (some keyPrefix) = starting w b keyPrefix := by
  apply List.filter_congr
  intro f hf
  by_cases hbucket : f.bucket = b
  · have halike := not_not.mp (h f hf hbucket)
    simp only [hbucket, decide_true, Bool.true_and, prefixMatches]
    rw [Bool.eq_iff_iff, List.isPrefixOf_iff_prefix]
    exact halike
  · simp only [hbucket, decide_false, Bool.false_and]

theorem matching_length_le (w : World) (b : String) (keyPrefix : Option String) :
    (matching w b keyPrefix).length ≤ (bucketRows w b).length := by
  have hsub : matching w b keyPrefix =
      (bucketRows w b).filter (fun f => prefixMatches keyPrefix f) := by
    simp only [matching, bucketRows, List.filter_filter, Bool.and_comm]
  rw [hsub]
  exact List.length_filter_le _ _

/-- Keys that are listed tell which rows are. -/
theorem readsAlike_of_keys (h : ((matching w b (some keyPrefix)).map (·.key)).Perm
    ((starting w b keyPrefix).map (·.key))) : ReadsAlike w b keyPrefix := by
  intro f hf hbucket htold
  have hrow : ∀ g ∈ w.db.files, g.bucket = b → g.key = f.key → g = f := by
    intro g hg hgbucket hkey
    exact Table.eq_of_key hg hf (Prod.ext_iff.mpr ⟨hgbucket.trans hbucket.symm, hkey⟩)
  have hmatching : f.key ∈ (matching w b (some keyPrefix)).map (·.key) ↔
      like (keyPrefix.toList ++ ['%']) f.key.toList = true := by
    rw [List.mem_map]
    constructor
    · rintro ⟨g, hg, hkey⟩
      obtain ⟨hmem, hgbucket, hlike⟩ := mem_matching.mp hg
      rwa [hrow g hmem hgbucket hkey] at hlike
    · intro hlike
      exact ⟨f, mem_matching.mpr ⟨hf, hbucket, hlike⟩, rfl⟩
  have hstarting : f.key ∈ (starting w b keyPrefix).map (·.key) ↔
      keyPrefix.toList <+: f.key.toList := by
    simp only [List.mem_map, starting, List.mem_filter, Bool.and_eq_true, decide_eq_true_eq,
      List.isPrefixOf_iff_prefix]
    constructor
    · rintro ⟨g, ⟨hmem, hgbucket, hstarts⟩, hkey⟩
      rwa [hrow g hmem hgbucket hkey] at hstarts
    · intro hstarts
      exact ⟨f, ⟨hf, hbucket, hstarts⟩, rfl⟩
  apply htold
  rw [← hmatching, ← hstarting]
  exact h.mem_iff

theorem listsPrefix_iff : ListsPrefix sm w b keyPrefix ↔ ReadsAlike w b keyPrefix := by
  constructor
  · intro hlists
    obtain ⟨files, hfiles⟩ := Paging.exists_listing uploaded (matching w b (some keyPrefix))
    have hlength : files.length ≤ (bucketRows w b).length := by
      rw [hfiles.perm.length_eq]
      exact matching_length_le w b _
    obtain ⟨files', hfiles', hinfos⟩ := hlists _ 0 _ w (Nat.le_refl _)
      ((listFiles_runs (Int.natCast_nonneg _) (Int.natCast_nonneg _)).mpr ⟨rfl, files, hfiles, rfl⟩)
    simp only [Option.getD_some, Int.toNat_natCast, List.drop_zero,
      List.take_of_length_le hlength] at hinfos
    have hkeys := congrArg (List.map FileInfo.key) hinfos
    simp only [List.map_map] at hkeys
    apply readsAlike_of_keys
    refine ((hfiles.perm.map _).symm.trans ?_).trans (hfiles'.perm.map _)
    exact List.Perm.of_eq hkeys
  · intro h limit offset infos u hlimit hrun
    obtain ⟨-, files, hfiles, hinfos⟩ :=
      (listFiles_runs (Int.natCast_nonneg _) (Int.natCast_nonneg _)).mp hrun
    simp only [Option.getD_some, Int.toNat_natCast] at hinfos
    have hlength := hfiles.perm.length_eq
    have hle := matching_length_le w b (some keyPrefix)
    rw [List.take_of_length_le] at hinfos
    · rw [matching_eq_starting h] at hfiles
      exact ⟨files, hfiles, hinfos⟩
    · rw [List.length_drop]
      omega

/-! ## The S3 listing -/

/-- `max-keys` as the listing takes it. -/
def shownKeys (maxKeys : Option Int) : Int := max 1 (min 1000 (maxKeys.getD 1000))

theorem shownKeys_bounds (maxKeys : Option Int) : 1 ≤ shownKeys maxKeys ∧ shownKeys maxKeys ≤ 1000 := by
  unfold shownKeys
  omega

/-- An answer that is not truncated comes from all the matching rows, in some order. -/
theorem contents_of_runs {verified : Except S3.S3Error Unit} {maxKeys : Option Int} {u : World}
    {response : S3.S3Response} {result : S3.ListBucketResult}
    (hrun : (S3.listObjectsV2 verified b ⟨some keyPrefix, maxKeys⟩).Runs (exec sm.host) w
      (.ok response) u)
    (hbody : response.body = .listing result) (htruncated : result.isTruncated = false) :
    ∃ files, Paging.Listing uploaded (matching w b (some keyPrefix)) files ∧
      result.contents.map (·.key) = files.map (·.key) := by
  simp only [S3.listObjectsV2, S3.orS3, Prog.bind_eq, Prog.pure_eq] at hrun
  obtain ⟨_, v, hverified, hr₁⟩ := Prog.runs_bind_ok.mp hrun
  obtain ⟨-, rfl⟩ := Prog.runs_ofExcept.mp hverified
  obtain ⟨infos, v₁, hinfos, hr₂⟩ := Prog.runs_bind_ok.mp hr₁
  obtain ⟨hret, -⟩ := Prog.runs_ret.mp hr₂
  obtain rfl := Except.ok.inj hret
  simp only [S3.S3Body.listing.injEq] at hbody
  subst hbody
  obtain ⟨hlow, hhigh⟩ := shownKeys_bounds maxKeys
  have hlisted := Prog.runs_mapError_ok.mp hinfos
  rw [← shownKeys] at hlisted htruncated
  rw [listFiles_runs (by simp only [Option.getD_some]; omega) (by simp)] at hlisted
  obtain ⟨-, files, hfiles, rfl⟩ := hlisted
  simp only [Option.getD_some, Int.toNat_zero, List.drop_zero, List.length_map, List.length_take,
    decide_eq_false_iff_not, not_lt] at htruncated
  refine ⟨files, hfiles, ?_⟩
  rw [← shownKeys]
  simp only [Option.getD_some, Int.toNat_zero, List.drop_zero, ← List.map_take, List.map_map]
  rw [List.take_of_length_le (by rw [List.length_take]; omega), List.take_of_length_le (by omega)]
  rfl

/-- A bucket of up to a thousand rows is shown whole. -/
theorem exists_untruncated (sm : StorageManager) (keyPrefix : String)
    (hsmall : (bucketRows w b).length ≤ 1000) :
    ∃ response result, (S3.listObjectsV2 (.ok ()) b ⟨some keyPrefix, none⟩).Runs (exec sm.host) w
        (.ok response) w ∧ response.body = .listing result ∧ result.isTruncated = false := by
  obtain ⟨files, hfiles⟩ := Paging.exists_listing uploaded (matching w b (some keyPrefix))
  have hlength : files.length ≤ 1000 := by
    rw [hfiles.perm.length_eq]
    exact Nat.le_trans (matching_length_le w b _) hsmall
  have hlisted : (listFiles b (some keyPrefix) (some (shownKeys none + 1)) (some 0)).Runs
      (exec sm.host) w (.ok (files.map FileInfo.ofStored)) w := by
    rw [listFiles_runs (by decide) (by decide)]
    refine ⟨rfl, files, hfiles, ?_⟩
    rw [Option.getD_some, Option.getD_some, Int.toNat_zero, List.drop_zero,
      List.take_of_length_le (Nat.le_trans hlength (by decide))]
  refine ⟨_, _, Prog.runs_bind_ok.mpr ⟨(), w, Prog.runs_ofExcept.mpr ⟨rfl, rfl⟩,
    Prog.runs_bind_ok.mpr ⟨_, w, Prog.runs_mapError_ok.mpr hlisted, ⟨rfl, rfl⟩⟩⟩, rfl, ?_⟩
  simp only [List.length_map, decide_eq_false_iff_not, not_lt, Option.getD_none]
  omega

theorem showsPrefix_of_readsAlike (h : ReadsAlike w b keyPrefix) : ShowsPrefix sm w b keyPrefix := by
  intro verified maxKeys response result u hrun hbody htruncated
  obtain ⟨files, hfiles, hkeys⟩ := contents_of_runs hrun hbody htruncated
  rw [hkeys, ← matching_eq_starting h]
  exact hfiles.perm.map _

theorem readsAlike_of_showsPrefix (hsmall : (bucketRows w b).length ≤ 1000)
    (h : ShowsPrefix sm w b keyPrefix) : ReadsAlike w b keyPrefix := by
  obtain ⟨response, result, hrun, hbody, htruncated⟩ :=
    exists_untruncated sm keyPrefix hsmall
  obtain ⟨files, hfiles, hkeys⟩ := contents_of_runs hrun hbody htruncated
  have hshown := h _ _ _ _ _ hrun hbody htruncated
  rw [hkeys] at hshown
  exact readsAlike_of_keys ((hfiles.perm.map _).symm.trans hshown)

/-- Both listings take the prefix literally exactly when no key of the bucket is one on which
the pattern reads differently; a prefix reads alike on every key exactly when it is plain. -/
theorem prefix_listed_iff (sm : StorageManager) (w : World) (b keyPrefix : String) :
    (ListsPrefix sm w b keyPrefix ∧ ShowsPrefix sm w b keyPrefix ↔ ReadsAlike w b keyPrefix) ∧
    ((bucketRows w b).length ≤ 1000 → ShowsPrefix sm w b keyPrefix → ReadsAlike w b keyPrefix) ∧
    ((∀ key, ¬ ToldApart keyPrefix key) ↔ Plain keyPrefix.toList) := by
  refine ⟨?_, readsAlike_of_showsPrefix, plain_iff⟩
  constructor
  · intro h
    exact listsPrefix_iff.mp h.1
  · intro h
    exact ⟨listsPrefix_iff.mpr h, showsPrefix_of_readsAlike h⟩

open Sample (manager)

/-- A bucket with the one key `report1`. -/
def reports : World :=
  (replay manager [(.storeFile "a" "report1" [120] none {} (.error (.io "")), { uuid := 1 })]
    ([], World.empty)).2

/-- Asked for keys under `report_`, both listings show `report1`. -/
theorem underscore_listed : ¬ ListsPrefix manager reports "a" "report_" ∧
    ¬ ShowsPrefix manager reports "a" "report_" := by
  have happart : ¬ ReadsAlike reports "a" "report_" := by
    intro h
    obtain ⟨f, hf⟩ : ∃ f, reports.db.files.find ("a", "report1") = some f :=
      Option.isSome_iff_exists.mp (by decide)
    obtain ⟨hbucket, hkey⟩ := Prod.ext_iff.mp (Table.find_key hf)
    have halike := h f (Table.find_mem hf) hbucket
    change f.key = "report1" at hkey
    rw [hkey] at halike
    exact absurd (show ToldApart "report_" "report1" by unfold ToldApart; decide) halike
  refine ⟨fun h => happart (listsPrefix_iff.mp h), fun h => happart (readsAlike_of_showsPrefix ?_ h)⟩
  decide

end LocalStorage.Proofs.Prefixes

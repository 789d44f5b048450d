import Mathlib.Data.List.Basic
import Mathlib.Data.List.Infix

namespace LocalStorage.Lib.Paths

/-- One component of a path. -/
abbrev Name := List Char

/-- A place in the file tree, as the names on the way to it from the root. -/
abbrev Loc := List Name

/-! ## Path strings -/

def isAbsolute (s : String) : Bool := s.toList.head? == some '/'

/-- `PathBuf::join`: an absolute argument replaces the base, and a separator is
added only to a nonempty base that does not end in one. -/
def join (base path : String) : String :=
  if isAbsolute path then path
  else if base == "" || base.toList.getLast? == some '/' then base ++ path
  else base ++ "/" ++ path

def dot : Name := ['.']
def dotDot : Name := ['.', '.']

/-- The pieces between separators, empty ones included. -/
def segments (s : String) : List Name := s.toList.splitOn '/'

/-- A path string as the standard library reads it: repeated separators and `.`
components mean nothing. -/
structure Path where
  absolute : Bool
  names : List Name
deriving DecidableEq, Repr

def parse (s : String) : Path :=
  ⟨isAbsolute s, (segments s).filter (fun n => n ≠ [] && n ≠ dot)⟩

/-- A path that ends in a separator, in `.` or in `..` can name a directory only. -/
def namesFile (s : String) : Bool :=
  match (segments s).getLast? with
  | some n => n ≠ [] && n ≠ dot && n ≠ dotDot
  | none => false

/-- `Path::file_stem` of a name: everything before its last dot, unless that is
nothing. -/
def stem (n : Name) : Name :=
  match n.reverse.dropWhile (· ≠ '.') with
  | [] => n
  | _ :: r => if r = [] then n else r.reverse

namespace Path

/-- `Path::with_extension`; a path without a file name is returned as it is. -/
def withExtension (p : Path) (ext : Name) : Path :=
  match p.names.getLast? with
  | none => p
  | some n =>
    if n = dotDot then p
    else { p with names := p.names.dropLast ++ [stem n ++ '.' :: ext] }

def parent (p : Path) : Option Path :=
  match p.names with
  | [] => none
  | _ => some { p with names := p.names.dropLast }

end Path

/-! ## Resolution -/

/-- Follow one component; `..` at the root stays at the root. -/
def enter (l : Loc) (n : Name) : Loc := if n = dotDot then l.dropLast else l ++ [n]

def walk (l : Loc) (ns : List Name) : Loc := ns.foldl enter l

/-- The places passed while following `ns` from `l`, the last of them `walk l ns`. -/
def trail (l : Loc) : List Name → List Loc
  | [] => []
  | n :: ns => enter l n :: trail (enter l n) ns

namespace Path

def start (cwd : Loc) (p : Path) : Loc := if p.absolute then [] else cwd

def resolve (cwd : Loc) (p : Path) : Loc := walk (p.start cwd) p.names

/-- Every directory on the way to `p` and `p` itself. -/
def passed (cwd : Loc) (p : Path) : List Loc := trail (p.start cwd) p.names

end Path

@[simp] theorem walk_nil (l : Loc) : walk l [] = l := rfl
@[simp] theorem walk_cons (l : Loc) (n : Name) (ns : List Name) :
    walk l (n :: ns) = walk (enter l n) ns := rfl

theorem walk_append (l : Loc) (ms ns : List Name) : walk l (ms ++ ns) = walk (walk l ms) ns :=
  List.foldl_append

@[simp] theorem trail_nil (l : Loc) : trail l [] = [] := rfl
@[simp] theorem trail_cons (l : Loc) (n : Name) (ns : List Name) :
    trail l (n :: ns) = enter l n :: trail (enter l n) ns := rfl

theorem trail_append (l : Loc) (ms ns : List Name) :
    trail l (ms ++ ns) = trail l ms ++ trail (walk l ms) ns := by
  induction ms generalizing l with
  | nil => rfl
  | cons m ms ih => simp [ih]

/-- A walk that leaves its start ends at a place it has passed. -/
theorem walk_mem_trail (l : Loc) {ns : List Name} (h : ns ≠ []) : walk l ns ∈ trail l ns := by
  induction ns generalizing l with
  | nil => exact absurd rfl h
  | cons n ns ih =>
    cases ns with
    | nil => simp
    | cons m ms => exact List.mem_cons_of_mem _ (ih (enter l n) (by simp))

/-- Leaving out the last component leaves out the last place. -/
theorem trail_dropLast (l : Loc) (ns : List Name) : trail l ns.dropLast = (trail l ns).dropLast := by
  induction ns generalizing l with
  | nil => rfl
  | cons n ns ih =>
    cases ns with
    | nil => rfl
    | cons m ms => simpa using ih (enter l n)

/-- Above where a walk ends, there is only what it has passed and what lies above its start. -/
theorem prefix_walk {m l : Loc} {ns : List Name} (h : m <+: walk l ns) :
    m <+: l ∨ m ∈ trail l ns := by
  induction ns generalizing l with
  | nil => exact .inl h
  | cons n ns ih =>
    rw [trail_cons, List.mem_cons]
    rcases ih h with hm | hm
    · unfold enter at hm ⊢
      split at hm
      · exact .inl (hm.trans (List.dropLast_prefix l))
      · rename_i hn
        rw [if_neg hn]
        rcases List.prefix_concat_iff.mp hm with heq | hpre
        · exact .inr (.inl heq)
        · exact .inl hpre
    · exact .inr (.inr hm)

/-- Without `..` a walk only goes down. -/
theorem walk_down {l : Loc} {ns : List Name} (h : dotDot ∉ ns) : walk l ns = l ++ ns := by
  induction ns generalizing l with
  | nil => simp
  | cons n ns ih =>
    rw [List.mem_cons, not_or] at h
    rw [walk_cons, ih h.2, enter, if_neg (Ne.symm h.1)]
    simp

theorem mem_trail_down {l m : Loc} {ns : List Name} (h : dotDot ∉ ns) :
    m ∈ trail l ns ↔ ∃ xs, xs ≠ [] ∧ xs <+: ns ∧ m = l ++ xs := by
  induction ns generalizing l with
  | nil => simp
  | cons n ns ih =>
    rw [List.mem_cons, not_or] at h
    have henter : enter l n = l ++ [n] := by rw [enter, if_neg (Ne.symm h.1)]
    rw [trail_cons, List.mem_cons, ih h.2, henter]
    constructor
    · rintro (rfl | ⟨xs, -, hxs, rfl⟩)
      · exact ⟨[n], by simp, by simp, rfl⟩
      · exact ⟨n :: xs, by simp, by simpa using hxs, by simp⟩
    · rintro ⟨xs, hne, hxs, rfl⟩
      obtain ⟨x, xs, rfl⟩ := List.exists_cons_of_ne_nil hne
      rw [List.cons_prefix_cons] at hxs
      obtain ⟨rfl, hxs⟩ := hxs
      by_cases hnil : xs = []
      · subst hnil
        exact .inl rfl
      · exact .inr ⟨xs, hnil, hxs, by simp⟩

/-! ## Strings one below the other -/

/-- `t` goes on after `s` and a separator. -/
def Under (s t : String) : Prop := (s ++ "/").toList <+: t.toList

instance (s t : String) : Decidable (Under s t) := inferInstanceAs (Decidable (_ <+: _))

theorem slash_not_mem {xs : List Char} {n : Name} (h : n ∈ xs.splitOn '/') : '/' ∉ n := by
  induction xs generalizing n with
  | nil =>
    simp only [List.splitOn_nil, List.mem_singleton] at h
    simp [h]
  | cons x xs ih =>
    rw [List.splitOn_cons_eq_if_modifyHead] at h
    split at h
    · rcases List.mem_cons.mp h with rfl | h
      · simp
      · exact ih h
    · rename_i hx
      cases hs : xs.splitOn '/' with
      | nil => exact absurd hs (List.splitOn_ne_nil _ _)
      | cons m ms =>
        rw [hs, List.modifyHead_cons, List.mem_cons] at h
        rcases h with rfl | h
        · rw [List.mem_cons, not_or]
          exact ⟨fun heq => hx (by simp [← heq]), ih (by simp [hs])⟩
        · exact ih (by simp [hs, h])

theorem segments_ne_nil (s : String) : segments s ≠ [] := List.splitOn_ne_nil _ _

theorem segments_injective {s t : String} (h : segments s = segments t) : s = t := by
  have hlist := congrArg (List.intercalate ['/']) h
  simp only [segments, List.intercalate_splitOn] at hlist
  exact String.toList_inj.mp hlist

/-- A name is all of its string when no separator is in it. -/
theorem segments_of_plain {s : String} (h : '/' ∉ s.toList) : segments s = [s.toList] := by
  have hsplit : (['/'].intercalate [s.toList]).splitOn '/' = [s.toList] :=
    List.splitOn_intercalate '/' (by simpa using h) (by simp)
  simpa [segments] using hsplit

theorem under_iff {s t : String} : Under s t ↔ segments s <+: (segments t).dropLast := by
  have hsep : "/".toList = ['/'] := rfl
  constructor
  · rintro ⟨r, hr⟩
    have hsplit : segments t = segments s ++ r.splitOn '/' := by
      rw [segments, ← hr, String.toList_append, hsep, List.append_assoc, List.singleton_append,
        List.splitOn_append_cons_self]
      rfl
    rw [hsplit, List.dropLast_append_of_ne_nil (List.splitOn_ne_nil _ _)]
    exact List.prefix_append _ _
  · rintro ⟨ms, hms⟩
    let rest := ms ++ [(segments t).getLast (segments_ne_nil t)]
    have hall : segments t = segments s ++ rest := by
      rw [← List.append_assoc, hms, List.dropLast_append_getLast]
    have hplain : ∀ n ∈ rest, '/' ∉ n := by
      intro n hn
      have hmem : n ∈ segments t := by
        rw [hall]
        exact List.mem_append_right _ hn
      exact slash_not_mem hmem
    have hsplit : (s.toList ++ '/' :: ['/'].intercalate rest).splitOn '/' = t.toList.splitOn '/' := by
      rw [List.splitOn_append_cons_self, List.splitOn_intercalate '/' hplain (by simp [rest])]
      exact hall.symm
    have hlist := congrArg (List.intercalate ['/']) hsplit
    rw [List.intercalate_splitOn, List.intercalate_splitOn] at hlist
    refine ⟨['/'].intercalate rest, ?_⟩
    rw [String.toList_append, hsep, List.append_assoc, List.singleton_append, hlist]

/-! ## Following a string from a place -/

/-- Where a path string starts from: the root if it is absolute. -/
def origin (l : Loc) (s : String) : Loc := if isAbsolute s then [] else l

/-- The places a path string passes from `l`. -/
def visits (l : Loc) (s : String) : List Loc := trail (origin l s) (parse s).names

/-- Where a path string leads from `l`. -/
def leads (l : Loc) (s : String) : Loc := walk (origin l s) (parse s).names

theorem segments_join {base s : String} (h : isAbsolute s = false) :
    (parse (join base s)).names = (parse base).names ++ (parse s).names := by
  have hsplit : ∀ xs ys : List Char,
      (xs ++ '/' :: ys).splitOn '/' = xs.splitOn '/' ++ ys.splitOn '/' :=
    fun xs ys => List.splitOn_append_cons_self xs ys
  unfold join
  rw [if_neg (by simp [h])]
  split
  · rename_i hbase
    rw [Bool.or_eq_true, beq_iff_eq, beq_iff_eq] at hbase
    rcases hbase with rfl | hlast
    · have hnone : (parse "").names = [] := by decide
      rw [hnone, String.empty_append, List.nil_append]
    · obtain ⟨xs, hxs⟩ := List.getLast?_eq_some_iff.mp hlast
      simp only [parse, segments, String.toList_append, hxs, List.append_assoc,
        List.singleton_append, hsplit, List.filter_append]
      simp [List.splitOn_nil]
  · have hsep : "/".toList = ['/'] := rfl
    simp only [parse, segments, String.toList_append, hsep, List.append_assoc,
      List.singleton_append, hsplit, List.filter_append]

/-- What is joined last decides what can be a file. -/
theorem namesFile_join (base s : String) : namesFile (join base s) = namesFile s := by
  have hlast : ∀ xs ys : List Char,
      ((xs ++ '/' :: ys).splitOn '/').getLast? = (ys.splitOn '/').getLast? := by
    intro xs ys
    rw [List.splitOn_append_cons_self, List.getLast?_append_of_ne_nil _ (List.splitOn_ne_nil _ _)]
  unfold join
  split
  · rfl
  · split
    · rename_i hbase
      rw [Bool.or_eq_true, beq_iff_eq, beq_iff_eq] at hbase
      rcases hbase with rfl | hend
      · rw [String.empty_append]
      · obtain ⟨xs, hxs⟩ := List.getLast?_eq_some_iff.mp hend
        simp only [namesFile, segments, String.toList_append, hxs, List.append_assoc,
          List.singleton_append, hlast]
    · have hsep : "/".toList = ['/'] := rfl
      simp only [namesFile, segments, String.toList_append, hsep, List.append_assoc,
        List.singleton_append, hlast]

theorem names_of_namesFile {s : String} (h : namesFile s = true) :
    ∃ ns n, (parse s).names = ns ++ [n] ∧ n ≠ dotDot := by
  unfold namesFile at h
  cases hn : (segments s).getLast? with
  | none => simp [hn] at h
  | some n =>
    simp only [hn, Bool.and_eq_true, decide_eq_true_eq] at h
    obtain ⟨ns, hns⟩ := List.getLast?_eq_some_iff.mp hn
    refine ⟨ns.filter (fun n => n ≠ [] && n ≠ dot), n, ?_, h.2⟩
    simp [parse, hns, List.filter_append, h.1.1, h.1.2]

theorem isAbsolute_join {base s : String} (h : isAbsolute s = false) :
    isAbsolute (join base s) = isAbsolute base := by
  unfold join
  rw [if_neg (by simp [h])]
  by_cases hbase : base = ""
  · subst hbase
    have hempty : isAbsolute "" = false := by decide
    simp [h, hempty]
  · have hne : base.toList ≠ [] := by simpa using hbase
    obtain ⟨c, cs, hc⟩ := List.exists_cons_of_ne_nil hne
    split <;> simp [isAbsolute, hc]

theorem join_absolute {base s : String} (h : isAbsolute s = true) : join base s = s := by
  simp [join, h]

/-- Joining a string to a base leads where the string leads from the base's place. -/
theorem resolve_join (cwd : Loc) (base s : String) :
    (parse (join base s)).resolve cwd = leads ((parse base).resolve cwd) s := by
  cases h : isAbsolute s with
  | true => simp [join_absolute h, leads, origin, h, Path.resolve, Path.start, parse]
  | false =>
    simp only [Path.resolve, segments_join h, walk_append, leads, origin, h, Path.start]
    simp [parse, isAbsolute_join h]

/-- The places a joined path passes are those of the base, unless the string is absolute,
and those the string visits from there. -/
theorem passed_join (cwd : Loc) (base s : String) :
    (parse (join base s)).passed cwd =
      (if isAbsolute s then [] else (parse base).passed cwd) ++
        visits ((parse base).resolve cwd) s := by
  cases h : isAbsolute s with
  | true => simp [join_absolute h, visits, origin, h, Path.passed, Path.start, parse]
  | false =>
    simp only [Path.passed, segments_join h, trail_append, visits, origin, h, Path.start,
      Path.resolve]
    simp [parse, isAbsolute_join h]

/-! ## Inside a directory -/

/-- Strictly below `root`. -/
def Inside (root l : Loc) : Prop := root <+: l ∧ l ≠ root

instance (root l : Loc) : Decidable (Inside root l) := inferInstanceAs (Decidable (_ ∧ _))

theorem inside_concat {root l : Loc} {n : Name} : Inside root (l ++ [n]) ↔ root <+: l := by
  constructor
  · rintro ⟨hp, hne⟩
    rcases List.prefix_concat_iff.mp hp with heq | hpre
    · exact absurd heq.symm hne
    · exact hpre
  · intro hp
    refine ⟨hp.trans (List.prefix_append l [n]), fun heq => ?_⟩
    have hlen := hp.length_le
    rw [← heq, List.length_append, List.length_singleton] at hlen
    omega

theorem Inside.below {root l m : Loc} (h : Inside root l) (hm : l <+: m) : Inside root m := by
  refine ⟨h.1.trans hm, ?_⟩
  rintro rfl
  exact h.2 (hm.eq_of_length_le h.1.length_le)

theorem resolve_concat {cwd : Loc} {absolute : Bool} {ns : List Name} {n : Name} (h : n ≠ dotDot) :
    Path.resolve cwd ⟨absolute, ns ++ [n]⟩ = Path.resolve cwd ⟨absolute, ns⟩ ++ [n] := by
  simp [Path.resolve, Path.start, walk_append, enter, h]

/-- A file keeps its directory when its extension is changed. -/
theorem Inside.withExtension {root cwd : Loc} {p : Path} {ext : Name} (hne : ext ≠ [])
    (hdot : ext ≠ dot) (h : Inside root (p.resolve cwd)) :
    Inside root ((p.withExtension ext).resolve cwd) := by
  obtain ⟨absolute, names⟩ := p
  unfold Path.withExtension
  cases hn : names.getLast? with
  | none => exact h
  | some n =>
    dsimp only
    split
    · exact h
    · rename_i hup
      obtain ⟨ns, rfl⟩ := List.getLast?_eq_some_iff.mp hn
      have hname : stem n ++ '.' :: ext ≠ dotDot := by
        intro heq
        have hlen := congrArg List.length heq
        simp only [List.length_append, List.length_cons, dotDot, List.length_nil] at hlen
        have hpos := List.length_pos_iff.mpr hne
        have hstem : stem n = [] := List.length_eq_zero_iff.mp (by omega)
        rw [hstem] at heq
        exact hdot (List.cons.inj heq).2
      rw [resolve_concat hup, inside_concat] at h
      rw [List.dropLast_concat, resolve_concat hname, inside_concat]
      exact h

end LocalStorage.Lib.Paths

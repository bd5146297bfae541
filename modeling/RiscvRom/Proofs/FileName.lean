import RiscvRom.Proofs.Parsing
import RiscvRom.Proofs.Writing

/-! File names and where paths lead.

A path is a folder part and a file name, and putting the two together again gives both back. The
location that a path leads to has the file name of the path as its last name; a path without a file
name leads to a folder, because all folders on the way to a location are there. So paths with
different file names never lead to the same file, and writing to one leaves the other as it is. -/

namespace RiscvRom

/-! ## Names and folders -/

namespace Path

theorem pieces_append (p q : Path) : pieces (p ++ slash :: q) = pieces p ++ pieces q :=
  splitWhere_append rfl p q

theorem slash_notMem_of_mem_pieces {p : Path} {piece : Bytes} (h : piece ∈ pieces p) :
    slash ∉ piece := by
  intro hslash
  exact absurd (not_of_mem_splitWhere _ p piece h slash hslash) (by decide)

/-- A piece that can stand for a file. -/
structure IsName (name : Bytes) : Prop where
  slash_notMem : slash ∉ name
  isIdle_eq : isIdle name = false
  isParent_eq : isParent name = false

theorem IsName.pieces_eq {name : Bytes} (h : IsName name) : pieces name = [name] :=
  splitWhere_of_forall (beq_eq_false_of_notMem h.slash_notMem)

/-- Behind the significant pieces stand idle ones only. -/
theorem exists_pieces_eq (p : Path) :
    ∃ idle, pieces p = (significant p).reverse ++ idle ∧ ∀ piece ∈ idle, isIdle piece = true := by
  refine ⟨((pieces p).reverse.takeWhile isIdle).reverse, ?_, ?_⟩
  · rw [significant, ← List.reverse_append, List.takeWhile_append_dropWhile, List.reverse_reverse]
  · intro piece hpiece
    exact List.mem_takeWhile_imp (List.mem_reverse.1 hpiece)

theorem mem_pieces_of_mem_significant {p : Path} {piece : Bytes} (h : piece ∈ significant p) :
    piece ∈ pieces p :=
  List.mem_reverse.1 ((List.dropWhile_sublist _).subset h)

theorem isIdle_head_dropWhile {ps before : List Bytes} {piece : Bytes}
    (h : ps.dropWhile isIdle = piece :: before) : isIdle piece = false := by
  have hhead := List.head?_dropWhile_not isIdle ps
  rw [h] at hhead
  simpa using hhead

theorem fileName?_eq_some_iff {p : Path} {name : Bytes} :
    fileName? p = some name ↔
      (∃ before, significant p = name :: before) ∧ isParent name = false := by
  unfold fileName?
  cases significant p with
  | nil => simp
  | cons piece before => simp [Option.filter_eq_some_iff]

theorem isName_of_fileName? {p : Path} {name : Bytes} (h : fileName? p = some name) :
    IsName name := by
  obtain ⟨⟨before, hbefore⟩, hparent⟩ := fileName?_eq_some_iff.1 h
  refine ⟨slash_notMem_of_mem_pieces (mem_pieces_of_mem_significant (p := p) ?_),
    isIdle_head_dropWhile hbefore, hparent⟩
  rw [hbefore]
  exact List.mem_cons_self

/-- A folder part as it is left of a path, with the pieces that it has in front of a name. -/
inductive IsFolder : Path → List Bytes → Prop
  | working : IsFolder [] []
  | root : IsFolder [slash] [[]]
  | dot : IsFolder [dot] [[dot]]
  | named {before : List Bytes} {piece : Bytes} (hslash : ∀ x ∈ before ++ [piece], slash ∉ x)
      (hidle : isIdle piece = false) :
    IsFolder (joinPieces (before ++ [piece])) (before ++ [piece])

theorem exists_isFolder_parent (p : Path) : ∃ ps, IsFolder (parent p) ps := by
  unfold parent
  cases htail : (significant p).tail with
  | nil => exact ⟨_, .working⟩
  | cons first rest =>
    cases hbefore : (first :: rest).dropWhile isIdle with
    | nil =>
      dsimp only
      split
      · exact ⟨_, .root⟩
      · exact ⟨_, .dot⟩
    | cons piece before =>
      have hslash : ∀ x ∈ before.reverse ++ [piece], slash ∉ x := by
        intro x hx
        have hmem : x ∈ (first :: rest).dropWhile isIdle := by
          rw [hbefore]
          simpa [or_comm] using hx
        refine slash_notMem_of_mem_pieces (mem_pieces_of_mem_significant (p := p) ?_)
        exact List.mem_of_mem_tail (htail ▸ (List.dropWhile_sublist _).subset hmem)
      dsimp only
      rw [List.reverse_cons]
      exact ⟨_, .named hslash (isIdle_head_dropWhile hbefore)⟩

section
variable {folder : Path} {ps : List Bytes} (h : IsFolder folder ps) {name : Bytes}
  (hname : IsName name)
include h hname

theorem pieces_join : pieces (join folder name) = ps ++ [name] := by
  cases h with
  | working => exact hname.pieces_eq
  | root => exact (pieces_append [] name).trans (by rw [hname.pieces_eq]; rfl)
  | dot => exact (pieces_append [dot] name).trans (by rw [hname.pieces_eq]; rfl)
  | @named before piece hslash hidle =>
    have hpieces : pieces (joinPieces (before ++ [piece])) = before ++ [piece] :=
      splitWhere_intercalate (by simp) hslash
    generalize joinPieces (before ++ [piece]) = folder at hpieces ⊢
    have hpiece : piece ≠ [] := by
      rintro rfl
      cases hidle
    have hne : folder ≠ [] := by
      rintro rfl
      have hlast := congrArg List.getLast? hpieces
      rw [List.getLast?_concat] at hlast
      exact hpiece (Option.some.inj hlast).symm
    have hlast : folder.getLast? ≠ some slash := by
      intro hslash
      obtain ⟨rest, rfl⟩ := List.getLast?_eq_some_iff.1 hslash
      have hend := congrArg List.getLast? ((pieces_append rest []).symm.trans hpieces)
      rw [List.getLast?_concat, show pieces [] = [[]] from rfl, List.getLast?_concat] at hend
      exact hpiece (Option.some.inj hend).symm
    rw [join, if_neg hne, if_neg hlast, pieces_append, hpieces, hname.pieces_eq]

theorem significant_join : significant (join folder name) = name :: ps.reverse := by
  rw [significant, pieces_join h hname, List.reverse_append, List.reverse_singleton,
    List.singleton_append, List.dropWhile_cons_of_neg (by simp [hname.isIdle_eq])]

theorem fileName?_join : fileName? (join folder name) = some name :=
  fileName?_eq_some_iff.2 ⟨⟨_, significant_join h hname⟩, hname.isParent_eq⟩

theorem parent_join : parent (join folder name) = folder := by
  rw [parent, significant_join h hname, List.tail_cons]
  cases h with
  | working => rfl
  | root => rfl
  | dot => rfl
  | @named before piece hslash hidle =>
    rw [List.reverse_append, List.reverse_singleton, List.singleton_append,
      List.dropWhile_cons_of_neg (by simp [hidle])]
    dsimp only
    rw [List.reverse_cons, List.reverse_reverse]

end

/-! ## Stems -/

/-- A name is its stem, or goes on with a dot behind it. -/
theorem stem_cases (name : Bytes) : stem name = name ∨ ∃ ext, name = stem name ++ dot :: ext := by
  unfold stem
  cases hrest : name.reverse.dropWhile (· != dot) with
  | nil => exact .inl rfl
  | cons mark before =>
    have hmark : mark = dot := by
      have hhead := List.head?_dropWhile_not (· != dot) name.reverse
      rw [hrest] at hhead
      simpa using hhead
    have hname : name =
        before.reverse ++ dot :: (name.reverse.takeWhile (· != dot)).reverse := by
      have hsplit := List.takeWhile_append_dropWhile (p := (· != dot)) (l := name.reverse)
      rw [hrest, hmark] at hsplit
      have hreverse := congrArg List.reverse hsplit
      simpa using hreverse.symm
    rw [List.tail_cons]
    cases hbefore : before.reverse with
    | nil => exact .inl rfl
    | cons first rest =>
      rw [hbefore] at hname
      exact .inr ⟨_, hname⟩

theorem slash_notMem_stem {name : Bytes} (h : slash ∉ name) : slash ∉ stem name := by
  rcases stem_cases name with hstem | ⟨ext, hname⟩
  · rwa [hstem]
  · intro hmem
    rw [hname] at h
    exact h (List.mem_append_left _ hmem)

end Path

/-! ## Where a path leads -/

namespace Location

theorem move_of_isIdle {piece : Bytes} (h : Path.isIdle piece = true) (l : Location) :
    l.move piece = l := if_pos h

theorem move_of_isName {name : Bytes} (h : Path.IsName name) (l : Location) :
    l.move name = ⟨l.anchor, l.names ++ [name]⟩ := by
  rw [move, if_neg (by simp [h.isIdle_eq]), if_neg (by simp [h.isParent_eq])]

theorem foldl_move_of_isIdle {ps : List Bytes} (h : ∀ piece ∈ ps, Path.isIdle piece = true)
    (l : Location) : ps.foldl move l = l := by
  induction ps with
  | nil => rfl
  | cons piece ps ih =>
    rw [List.foldl_cons, move_of_isIdle (h piece List.mem_cons_self)]
    exact ih fun x hx => h x (List.mem_cons_of_mem piece hx)

theorem parent_of_names_ne_nil {l : Location} (h : l.names ≠ []) :
    l.parent = ⟨l.anchor, l.names.dropLast⟩ := by
  obtain ⟨anchor, names⟩ := l
  cases names with
  | nil => exact absurd rfl h
  | cons first rest => cases anchor <;> rfl

theorem names_parent_of_eq_nil {l : Location} (h : l.names = []) : l.parent.names = [] := by
  obtain ⟨anchor, names⟩ := l
  subst h
  cases anchor <;> rfl

theorem names_start (p : Path) : (start p).names = [] := by
  unfold start
  split <;> rfl

/-- The last name of a location is the file name of the path that leads there. -/
theorem getLast?_names_foldl_move {p : Path} {name : Bytes} (h : Path.fileName? p = some name)
    (l : Location) : ((Path.pieces p).foldl move l).names.getLast? = some name := by
  obtain ⟨⟨before, hbefore⟩, -⟩ := Path.fileName?_eq_some_iff.1 h
  obtain ⟨idle, hpieces, hidle⟩ := Path.exists_pieces_eq p
  rw [hpieces, hbefore, List.reverse_cons, List.foldl_append, foldl_move_of_isIdle hidle,
    List.foldl_append, List.foldl_cons, List.foldl_nil,
    move_of_isName (Path.isName_of_fileName? h), List.getLast?_concat]

end Location

namespace Directory

variable {d : Directory} {l m : Location} {p : Path}

theorem foldl_move_of_walk {pieces : List Bytes} (h : d.walk l pieces = .ok m) :
    m = pieces.foldl Location.move l := by
  induction pieces generalizing l with
  | nil => exact (Except.ok.inj h).symm
  | cons piece rest ih => exact ih ((walk_cons d l piece rest).1 h).2.2

/-- All folders on the way to a location are there. -/
def IsRooted (d : Directory) (l : Location) : Prop :=
  ∀ names, names <+: l.names → names ≠ l.names → d.node? ⟨l.anchor, names⟩ = some .folder

theorem length_dropLast_lt {names : List Bytes} (h : names ≠ []) :
    names.dropLast.length < names.length := by
  rw [List.length_dropLast]
  exact Nat.sub_lt (List.length_pos_iff.2 h) Nat.one_pos

theorem node?_parent (h : d.IsRooted l) : d.node? l.parent = some .folder := by
  by_cases hnames : l.names = []
  · exact if_pos (Location.names_parent_of_eq_nil hnames)
  · rw [Location.parent_of_names_ne_nil hnames]
    refine h _ (List.dropLast_prefix _) fun heq => ?_
    exact absurd (congrArg List.length heq) (Nat.ne_of_lt (length_dropLast_lt hnames))

theorem isRooted_parent (h : d.IsRooted l) : d.IsRooted l.parent := by
  intro names hinit hne
  by_cases hnames : l.names = []
  · rw [Location.names_parent_of_eq_nil hnames, List.prefix_nil] at hinit
    exact if_pos hinit
  · rw [Location.parent_of_names_ne_nil hnames] at hinit hne ⊢
    refine h names (hinit.trans (List.dropLast_prefix _)) ?_
    rintro rfl
    exact absurd hinit.length_le (Nat.not_le.2 (length_dropLast_lt hnames))

/-- A folder on the way is passed, so what comes next has all its folders. -/
theorem isRooted_move (h : d.IsRooted l) (hl : d.node? l = some .folder) (piece : Bytes) :
    d.IsRooted (l.move piece) := by
  unfold Location.move
  split_ifs
  · exact h
  · exact isRooted_parent h
  · intro names hinit hne
    rcases List.prefix_concat_iff.1 hinit with heq | hinit
    · exact absurd heq hne
    · by_cases hnames : names = l.names
      · subst hnames
        exact hl
      · exact h names hinit hnames

theorem isRooted_walk {pieces : List Bytes} (h : d.IsRooted l) (hwalk : d.walk l pieces = .ok m) :
    d.IsRooted m := by
  induction pieces generalizing l with
  | nil =>
    cases hwalk
    exact h
  | cons piece rest ih =>
    obtain ⟨hfolder, -, hrest⟩ := (walk_cons d l piece rest).1 hwalk
    exact ih (isRooted_move h hfolder piece) hrest

theorem exists_walk_of_append {before after : List Bytes} (h : d.walk l (before ++ after) = .ok m) :
    ∃ middle, d.walk l before = .ok middle ∧ d.walk middle after = .ok m := by
  induction before generalizing l with
  | nil => exact ⟨l, rfl, h⟩
  | cons piece rest ih =>
    obtain ⟨hfolder, hlength, hrest⟩ := (walk_cons d l piece (rest ++ after)).1 h
    obtain ⟨middle, hmiddle, hafter⟩ := ih hrest
    exact ⟨middle, (walk_cons d l piece rest).2 ⟨hfolder, hlength, hmiddle⟩, hafter⟩

theorem isRooted_start (d : Directory) (p : Path) : d.IsRooted (.start p) := by
  intro names hinit hne
  rw [Location.names_start] at hinit hne
  exact absurd (List.prefix_nil.1 hinit) hne

/-- A path without a file name leads to a folder, if anywhere. -/
theorem node?_of_fileName?_eq_none (hname : Path.fileName? p = none)
    (h : d.walk (.start p) (Path.pieces p) = .ok l) : d.node? l = some .folder := by
  obtain ⟨idle, hpieces, hidle⟩ := Path.exists_pieces_eq p
  rw [hpieces] at h
  cases hsignificant : Path.significant p with
  | nil =>
    rw [hsignificant, List.reverse_nil, List.nil_append] at h
    rw [foldl_move_of_walk h, Location.foldl_move_of_isIdle hidle]
    exact if_pos (Location.names_start p)
  | cons piece before =>
    have hparent : Path.isParent piece = true := by
      by_contra hnot
      have hsome := Path.fileName?_eq_some_iff.2
        ⟨⟨before, hsignificant⟩, Bool.eq_false_of_not_eq_true hnot⟩
      rw [hname] at hsome
      cases hsome
    rw [hsignificant, List.reverse_cons, List.append_assoc] at h
    obtain ⟨middle, hmiddle, hafter⟩ := exists_walk_of_append h
    have hmove : middle.move piece = middle.parent := by
      rw [Location.move, if_neg (by simp [Path.isIdle_head_dropWhile hsignificant]), if_pos hparent]
    rw [foldl_move_of_walk hafter, List.singleton_append, List.foldl_cons, hmove,
      Location.foldl_move_of_isIdle hidle]
    exact node?_parent (isRooted_walk (isRooted_start d p) hmiddle)

theorem exists_fileName?_of_read {content : Bytes} (h : d.read p = .ok content) :
    ∃ name, Path.fileName? p = some name := by
  obtain ⟨l, hfollow, hnode⟩ := read_eq_ok.1 h
  apply Option.ne_none_iff_exists'.1
  intro hname
  have hfolder := node?_of_fileName?_eq_none hname (follow_eq_ok.1 hfollow).2.2
  rw [hnode] at hfolder
  cases hfolder

theorem getLast?_names_of_follow {name : Bytes} (hname : Path.fileName? p = some name)
    (h : d.follow p (Path.pieces p) = .ok l) : l.names.getLast? = some name := by
  rw [foldl_move_of_walk (follow_eq_ok.1 h).2.2]
  exact Location.getLast?_names_foldl_move hname _

/-- A file is left as it is by a write to a path with another file name. -/
theorem read_put_of_fileName?_ne {q : Path} {name other content image : Bytes}
    (hread : d.read p = .ok content) (hname : Path.fileName? p = some name)
    (hother : Path.fileName? q = some other) (hne : other ≠ name)
    (hq : d.follow q (Path.pieces q) = .ok l) (hl : d.node? l ≠ some .folder) :
    (d.put l (.file image)).read p = .ok content := by
  refine (read_put_of_ne hl fun hp => hne ?_).2 hread
  have hlast := getLast?_names_of_follow hother hq
  rw [getLast?_names_of_follow hname hp] at hlast
  exact (Option.some.inj hlast).symm

end Directory

end RiscvRom

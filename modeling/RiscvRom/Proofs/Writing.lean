import Mathlib
import RiscvRom.Command.Session

/-! What writing a file changes.

A write that succeeds puts the content at the location that its path leads to, which was no folder
before. Paths only lead through folders, so every path leads where it led before: the file that was
written is read back under each path to it, and all other files stay. This is all that is asked of a
store whose writes take effect as a whole. -/

namespace RiscvRom

namespace Directory

variable {d d' : Directory} {p q : Path} {l m m' : Location} {content : Bytes}

theorem names_ne_nil (h : d.node? l ≠ some .folder) : l.names ≠ [] := by
  intro hnames
  exact h (if_pos hnames)

/-- One location is changed, and all others stay. -/
theorem node?_put (h : d.node? l ≠ some .folder) (n : Node) (m : Location) :
    (d.put l n).node? m = if m = l then some n else d.node? m := by
  split
  · rename_i hm
    rw [hm, node?_put_self d (names_ne_nil h)]
  · rename_i hm
    exact node?_put_of_ne d hm n

theorem write_eq_ok :
    d.write p content = .ok d' ↔
      p.getLast? ≠ some Path.slash ∧ ∃ l, d.follow p (Path.pieces p) = .ok l ∧
        d.node? l ≠ some .folder ∧ d' = d.put l (.file content) := by
  unfold write
  split
  · rename_i hslash
    constructor
    · intro h
      dsimp only at h
      split at h <;> cases h
    · rintro ⟨hne, -⟩
      exact absurd hslash hne
  · rename_i hslash
    cases d.follow p (Path.pieces p) with
    | error e => simp
    | ok l =>
      by_cases hl : d.node? l = some .folder
      · simp [hl]
      · simpa [hl, hslash] using eq_comm

/-! ## Following a path -/

theorem walk_cons (d : Directory) (l : Location) (piece : Bytes) (rest : List Bytes) :
    d.walk l (piece :: rest) = .ok m ↔
      d.node? l = some .folder ∧ piece.length ≤ nameLimit ∧ d.walk (l.move piece) rest = .ok m := by
  rw [walk]
  cases d.node? l with
  | none => simp
  | some n =>
    cases n with
    | file content => simp
    | folder =>
      dsimp only
      split
      · rename_i h
        simp [Nat.not_le.2 h]
      · rename_i h
        simp [Nat.not_lt.1 h]

theorem follow_eq_ok {pieces : List Bytes} :
    d.follow p pieces = .ok l ↔
      p ≠ [] ∧ p.length < pathLimit ∧ d.walk (.start p) pieces = .ok l := by
  unfold follow
  split_ifs with hp hlength
  · simp [hp]
  · simp [Nat.not_lt.2 hlength]
  · simp [hp, Nat.not_le.1 hlength]

theorem read_eq_ok :
    d.read p = .ok content ↔
      ∃ l, d.follow p (Path.pieces p) = .ok l ∧ d.node? l = some (.file content) := by
  unfold read
  cases d.follow p (Path.pieces p) with
  | error e => simp
  | ok l =>
    cases hnode : d.node? l with
    | none => simp [hnode]
    | some n => cases n <;> simp [hnode]

/-- A path leads to the same location wherever the folders on its way are. -/
theorem walk_of_folders (h : ∀ m, d.node? m = some .folder → d'.node? m = some .folder)
    {pieces : List Bytes} (hwalk : d.walk m pieces = .ok m') : d'.walk m pieces = .ok m' := by
  induction pieces generalizing m with
  | nil => exact hwalk
  | cons piece rest ih =>
    obtain ⟨hfolder, hlength, hrest⟩ := (walk_cons d m piece rest).1 hwalk
    exact (walk_cons d' m piece rest).2 ⟨h m hfolder, hlength, ih hrest⟩

section
variable (h : d.node? l ≠ some .folder)
include h

/-- A file that is put where no folder was leaves all folders where they are. -/
theorem node?_put_eq_folder :
    (d.put l (.file content)).node? m = some .folder ↔ d.node? m = some .folder := by
  rw [node?_put h]
  split
  · rename_i hm
    rw [hm]
    exact iff_of_false nofun h
  · rfl

theorem follow_put {pieces : List Bytes} :
    (d.put l (.file content)).follow p pieces = .ok m ↔ d.follow p pieces = .ok m := by
  rw [follow_eq_ok, follow_eq_ok]
  refine and_congr_right fun _ => and_congr_right fun _ => ⟨?_, ?_⟩
  · exact walk_of_folders fun _ => (node?_put_eq_folder h).1
  · exact walk_of_folders fun _ => (node?_put_eq_folder h).2

/-- A file that was written is read back. -/
theorem read_put (hfollow : d.follow p (Path.pieces p) = .ok l) :
    (d.put l (.file content)).read p = .ok content := by
  refine read_eq_ok.2 ⟨l, (follow_put h).2 hfollow, ?_⟩
  rw [node?_put h, if_pos rfl]

/-- A path that leads elsewhere finds what it found before. -/
theorem read_put_of_ne (hfollow : d.follow q (Path.pieces q) ≠ .ok l) {other : Bytes} :
    (d.put l (.file content)).read q = .ok other ↔ d.read q = .ok other := by
  rw [read_eq_ok, read_eq_ok]
  simp only [follow_put h]
  refine exists_congr fun m => and_congr_right fun hm => ?_
  have hml : m ≠ l := by
    rintro rfl
    exact hfollow hm
  rw [node?_put_of_ne d hml]

end

end Directory

/-! ## Stores with atomic writes -/

/-- A store with writes that take effect as a whole or not at all. What was written is read under
every path to the same file, all other files stay, and a write that fails changes nothing. -/
structure AtomicStore (σ : Type) extends Store σ where
  sameFile : σ → Path → Path → Prop
  sameFile_refl (s : σ) (p : Path) : sameFile s p p
  stored {s : σ} {p q : Path} {content : Bytes} (h : (write s p content).1 = .ok ())
    (hq : sameFile s p q) : read (write s p content).2 q = .ok content
  kept {s : σ} {p q : Path} {content other : Bytes} (h : (write s p content).1 = .ok ())
    (hq : ¬sameFile s p q) : read (write s p content).2 q = .ok other ↔ read s q = .ok other
  unchanged {s : σ} {p : Path} {content : Bytes} {e : StoreError}
    (h : (write s p content).1 = .error e) : (write s p content).2 = s

namespace Directory

variable {d : Directory} {p : Path} {content : Bytes}

theorem store_write_eq_ok :
    (store.write d p content).1 = .ok () ↔
      d.write p content = .ok (store.write d p content).2 := by
  dsimp only [store]
  cases d.write p content with
  | error e => exact iff_of_false nofun nofun
  | ok changed => exact iff_of_true rfl rfl

/-- Two paths lead to the same file if they lead to the same location. -/
def atomicStore : AtomicStore Directory where
  toStore := store
  sameFile d p q := d.follow q (Path.pieces q) = d.follow p (Path.pieces p)
  sameFile_refl _ _ := rfl
  stored := by
    intro d p q content h hq
    obtain ⟨-, l, hfollow, hfolder, hput⟩ := write_eq_ok.1 (store_write_eq_ok.1 h)
    rw [hput]
    exact read_put hfolder (hq.trans hfollow)
  kept := by
    intro d p q content other h hq
    obtain ⟨-, l, hfollow, hfolder, hput⟩ := write_eq_ok.1 (store_write_eq_ok.1 h)
    rw [hput]
    exact read_put_of_ne hfolder fun heq => hq (heq.trans hfollow.symm)
  unchanged := by
    intro d p content e h
    dsimp only [store] at h ⊢
    cases hwrite : d.write p content with
    | error e => rfl
    | ok changed =>
      rw [hwrite] at h
      cases h

end Directory

/-- The same files where some writes are refused, for want of space or of permission. -/
def AtomicStore.refusing {σ : Type} (store : AtomicStore σ)
    (refusal? : σ → Path → Bytes → Option StoreError) : AtomicStore σ where
  read := store.read
  write s p content :=
    match refusal? s p content with
    | some e => (.error e, s)
    | none => store.write s p content
  sameFile := store.sameFile
  sameFile_refl := store.sameFile_refl
  stored := by
    intro s p q content h hq
    split at h
    · cases h
    · exact store.stored h hq
  kept := by
    intro s p q content other h hq
    split at h
    · cases h
    · exact store.kept h hq
  unchanged := by
    intro s p content e h
    split at h
    · rfl
    · exact store.unchanged h

end RiscvRom

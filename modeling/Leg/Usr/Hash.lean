import Leg.Libc.CString
import Leg.Libc.StrSplit
import Leg.Storage.BlobInfo

/-! The shell of `hash.c`: which blob a command line runs. -/
namespace Leg
open Memory Fs

/-- The locals of the shell's `main`, in the user's part of the address space and apart from each
other. -/
structure ShellFrame where
  buf : ℕ
  nameBuf : ℕ
  size : ℕ
  size_pos : 0 < size
  buf_user : buf + 256 ≤ procUserVaTop
  nameBuf_user : nameBuf + 256 ≤ procUserVaTop
  size_user : size + 4 ≤ procUserVaTop
  buf_nameBuf : buf + 256 ≤ nameBuf ∨ nameBuf + 256 ≤ buf
  buf_size : buf + 256 ≤ size ∨ size + 4 ≤ buf
  nameBuf_size : size + 4 ≤ nameBuf ∨ nameBuf + 256 ≤ size

def maxArgs : ℕ := 16

/-- The names of `commands`. -/
def shellCommands : List (List UInt8) := [
  ascii ['c', 'l', 'e', 'a', 'r'], ascii ['e', 'c', 'h', 'o'], ascii ['e', 'x', 'i', 't'],
  ascii ['h', 'e', 'l', 'p'], ascii ['l', 's'], ascii ['s', 'l', 'e', 'e', 'p']]

/-- What the shell does with a line: nothing, a command of its own, `exec(name_buf)` after it has
looked at a blob, or the report of an unknown command with the word. -/
inductive ShellAction where
  | again
  | command (i : ℕ)
  | exec (i : ℕ)
  | unknown (word : ℕ)
  deriving DecidableEq

/-- The search among the commands. -/
def findCommand (m : Memory) (word : ℕ) : List (List UInt8) → ℕ → Option (Option ℕ)
  | [], _ => some none
  | c :: cs, i => do
    if ← strcmpEq m.readable word c then return some i else findCommand m word cs (i + 1)

section Shell
variable (f : ShellFrame)

/-- The look at a blob: the call, then the test of its flags and of its name. -/
def blobMatches (word i : ℕ) (s : Fs) : Fs × Bool :=
  let r := (s.storeWord f.size 0).svcFsBlobInfo i f.nameBuf 256 f.size
  let m := r.1.heap.heap.mem
  (r.1, (fsBlobAt m r.2).flags = 1 && strncmpAt m (m.load f.size) f.nameBuf word)

/-- The loop over the blobs, with `k` left. -/
def scanBlobs (word : ℕ) : (k i : ℕ) → Fs → Fs × ShellAction
  | 0, _, s => (s, .unknown word)
  | k + 1, i, s =>
    match blobMatches f word i s with
    | (s, true) => (s, .exec i)
    | (s, false) => scanBlobs word k (i + 1) s

/-- A round of `main` once the line has been read. -/
def shellRound (fuel : ℕ) (s : Fs) : Option (Fs × ShellAction) := do
  let (m, argv) ← strSplit s.heap.heap.mem fuel f.buf maxArgs
  let s := s.withMem m
  match argv with
  | [] => return (s, .again)
  | word :: _ =>
    match ← findCommand m word shellCommands 0 with
    | some i => return (s, .command i)
    | none => return scanBlobs f word s.fsBlobCount 0 s

end Shell

/-- The first executable blob with the name. -/
def firstExecutable (blobs : List MkfsBlob) (name : List UInt8) : Option ℕ :=
  blobs.findIdx? fun b => b.flags == 1 && b.name == name

/-- The round runs the first executable blob that is named like the word: it hands over this
name, and the kernel finds this blob by it. Without such a blob it reports the word. -/
def DispatchRight (f : ShellFrame) (fuel : ℕ) (s : Fs) (blobs : List MkfsBlob)
    (word : List UInt8) : Prop :=
  ∃ t action, shellRound f fuel s = some (t, action) ∧
    match firstExecutable blobs word with
    | some i => action = .exec i ∧ IsCString t.heap.heap.mem f.nameBuf word ∧
        (t.fsFind word).1 = t.fsBlobAddr i
    | none => ∃ p, action = .unknown p ∧ IsCString t.heap.heap.mem p word

/-- The first executable blob whose name the word starts with is the first blob named like it. -/
def PrefixesAside (blobs : List MkfsBlob) (word : List UInt8) : Prop :=
  ∀ i, (blobs.findIdx? fun b => b.flags == 1 && b.name.isPrefixOf word) = some i →
    (blobs.findIdx? fun b => b.name == word) = some i

variable {f : ShellFrame} {s : Fs} {blobs : List MkfsBlob} {word : ℕ} {w : List UInt8}

theorem findCommand_eq {m : Memory} (h : IsCString m word w) (hfits : word + w.length < 4294967296)
    (hnul : (0 : UInt8) ∉ w) {cs : List (List UInt8)} (hcs : ∀ c ∈ cs, (0 : UInt8) ∉ c)
    (hno : w ∉ cs) (i : ℕ) : findCommand m word cs i = some none := by
  induction cs generalizing i with
  | nil => rfl
  | cons c cs ih =>
    have hne : w ≠ c := fun heq => hno (heq ▸ List.mem_cons_self ..)
    rw [findCommand, strcmpEq_literal h hfits hnul (hcs c (List.mem_cons_self ..))]
    show (if _ then _ else _) = _
    rw [if_neg (by simpa using hne)]
    exact ih (fun c hc => hcs c (List.mem_cons_of_mem _ hc))
      (fun hmem => hno (List.mem_cons_of_mem _ hmem)) (i + 1)

/-- What the shell may write: its name buffer and the size. -/
def OutsideScan (f : ShellFrame) (a : ℕ) : Prop :=
  ¬(f.nameBuf ≤ a ∧ a < f.nameBuf + 256) ∧ ¬(f.size ≤ a ∧ a < f.size + 4)

/-- The look at a blob leaves its name in the buffer, and accepts it if it is executable and the
word starts with its name. -/
theorem blobMatches_spec (h : Mounted s blobs) (hva : kernelVa ≤ s.heap.heap.base) {i : ℕ}
    {b : MkfsBlob} (hi : blobs[i]? = some b) (hshort : b.name.length < 256)
    (hname : (0 : UInt8) ∉ b.name) (hw : IsCString s.heap.heap.mem word w)
    (hnul : (0 : UInt8) ∉ w) (hbuf : f.buf ≤ word) (hend : word + w.length < f.buf + 256) :
    ∃ m, blobMatches f word i s = (s.withMem m, b.flags == 1 && b.name.isPrefixOf w) ∧
      IsCString m f.nameBuf b.name ∧ ∀ a, OutsideScan f a → m a = s.heap.heap.mem a := by
  have hnb := f.nameBuf_user
  have hsz := f.size_user
  have hbu := f.buf_user
  have htop : procUserVaTop ≤ kernelVa := by decide
  have hkernel : kernelVa < 4294967296 := by decide
  have hstore : Mounted (s.storeWord f.size 0) blobs := h.withMem fun a ha =>
    store_agree s.heap.heap.mem f.size 0 (show a + 1 ≤ f.size ∨ f.size + 4 ≤ a by omega) a
      (le_refl _) (Nat.lt_succ_self a)
  obtain ⟨m, hcall, hstring, hload, hframe⟩ := svcFsBlobInfo_user hstore hva hi
    (show 0 < 256 by decide) (show f.nameBuf + 256 ≤ kernelVa by omega) f.size_pos f.nameBuf_size
  have hsame : ∀ a, OutsideScan f a → m a = s.heap.heap.mem a := by
    rintro a ⟨h1, h2⟩
    rw [hframe a h1 h2]
    exact store_agree s.heap.heap.mem f.size 0 (show a + 1 ≤ f.size ∨ f.size + 4 ≤ a by omega) a
      (le_refl _) (Nat.lt_succ_self a)
  have hmounted : Mounted (s.withMem m) blobs := h.withMem fun a ha =>
    hsame a ⟨by omega, by omega⟩
  have hall : b.name.take (256 - 1) = b.name := List.take_of_length_le (by omega)
  rw [hall] at hstring
  rw [Nat.min_eq_right (by omega)] at hload
  have hapart := f.buf_nameBuf
  have hapart' := f.buf_size
  have hword : IsCString m word w := hw.agree fun a h1 h2 => hsame a ⟨by omega, by omega⟩
  obtain ⟨-, -, hdesc⟩ := hmounted.descAt hi
  have hcmp : strncmpAt m (m.load f.size) f.nameBuf word = b.name.isPrefixOf w := by
    rw [hload, strncmpAt_eq _ hstring hword (by omega) (by omega) hname hnul, Bool.eq_iff_iff,
      strncmpEq_iff, List.take_length, List.isPrefixOf_iff_prefix, List.prefix_iff_eq_take]
  have hflags : (fsBlobAt m (s.fsBlobAddr i)).flags = b.flags := congrArg FsBlob.flags hdesc
  refine ⟨m, ?_, hstring, hsame⟩
  unfold blobMatches
  rw [hcall]
  dsimp only
  show (s.withMem m, decide ((fsBlobAt m (s.fsBlobAddr i)).flags = 1) &&
    strncmpAt m (m.load f.size) f.nameBuf word) = _
  rw [hflags, hcmp]
  rfl

/-- The loop stops at the first executable blob whose name the word starts with. -/
theorem scanBlobs_eq (hshort : ∀ b ∈ blobs, b.name.length < 256)
    (hnames : ∀ b ∈ blobs, (0 : UInt8) ∉ b.name) (hnul : (0 : UInt8) ∉ w) (hbuf : f.buf ≤ word)
    (hend : word + w.length < f.buf + 256) (k : ℕ) : ∀ {i : ℕ} {s : Fs}, i + k = blobs.length →
    Mounted s blobs → kernelVa ≤ s.heap.heap.base → IsCString s.heap.heap.mem word w →
    ∃ m, Mounted (s.withMem m) blobs ∧
      match (blobs.drop i).findIdx? fun b => b.flags == 1 && b.name.isPrefixOf w with
      | none => scanBlobs f word k i s = (s.withMem m, .unknown word) ∧ IsCString m word w
      | some j => scanBlobs f word k i s = (s.withMem m, .exec (i + j)) ∧
          ∀ b, blobs[i + j]? = some b → IsCString m f.nameBuf b.name := by
  induction k with
  | zero =>
    intro i s hi h hva hw
    rw [List.drop_eq_nil_of_le (by omega)]
    exact ⟨s.heap.heap.mem, h, rfl, hw⟩
  | succ k ih =>
    intro i s hi h hva hw
    have hlt : i < blobs.length := by omega
    have hget := List.getElem?_eq_getElem hlt
    have hmem := List.getElem_mem hlt
    obtain ⟨m, hcall, hstring, hframe⟩ := blobMatches_spec h hva hget (hshort _ hmem)
      (hnames _ hmem) hw hnul hbuf hend
    have hnb := f.nameBuf_user
    have hsz := f.size_user
    have hapart := f.buf_nameBuf
    have hapart' := f.buf_size
    have htop : procUserVaTop ≤ kernelVa := by decide
    have hmounted : Mounted (s.withMem m) blobs := h.withMem fun a ha =>
      hframe a ⟨by omega, by omega⟩
    have hword : IsCString m word w := hw.agree fun a h1 h2 => hframe a ⟨by omega, by omega⟩
    rw [scanBlobs, hcall, List.drop_eq_getElem_cons hlt, List.findIdx?_cons]
    by_cases hmatch : (blobs[i].flags == 1 && blobs[i].name.isPrefixOf w) = true
    · rw [hmatch, if_pos rfl]
      refine ⟨m, hmounted, rfl, fun b hb => ?_⟩
      obtain rfl := Option.some.inj (hget.symm.trans hb)
      exact hstring
    · rw [Bool.not_eq_true] at hmatch
      rw [hmatch, if_neg (by simp)]
      obtain ⟨m', hmounted', hrest⟩ :=
        ih (show i + 1 + k = blobs.length by omega) hmounted hva hword
      refine ⟨m', hmounted', ?_⟩
      cases hfind : (blobs.drop (i + 1)).findIdx? fun b => b.flags == 1 && b.name.isPrefixOf w with
      | none =>
        rw [hfind] at hrest
        exact hrest
      | some j =>
        rw [hfind] at hrest
        have hij : i + (j + 1) = i + 1 + j := by omega
        show scanBlobs f word k (i + 1) (s.withMem m) = (s.withMem m', .exec (i + (j + 1))) ∧
          ∀ b, blobs[i + (j + 1)]? = some b → IsCString m' f.nameBuf b.name
        rw [hij]
        exact hrest

theorem fsBlobAddr_inj (h : Mounted s blobs) {i j : ℕ} (hi : i < blobs.length)
    (hj : j < blobs.length) (heq : s.fsBlobAddr i = s.fsBlobAddr j) : i = j := by
  rw [(h.descAt (List.getElem?_eq_getElem hi)).1, (h.descAt (List.getElem?_eq_getElem hj)).1]
    at heq
  unfold fsBlobBytes at heq
  omega

/-- A round on a line with a word that is no command scans the blobs for it. -/
theorem shellRound_scan (h : Mounted s blobs) (hva : kernelVa ≤ s.heap.heap.base) {fuel : ℕ}
    {line : List UInt8} (hline : IsCString s.heap.heap.mem f.buf line) (hlen : line.length < 256)
    (hnul : (0 : UInt8) ∉ line) (hword : firstWord line ≠ [])
    (hcmd : firstWord line ∉ shellCommands) (hfuel : line.length < fuel) :
    ∃ m start, shellRound f fuel s = some (scanBlobs f start blobs.length 0 (s.withMem m)) ∧
      Mounted (s.withMem m) blobs ∧ IsCString m start (firstWord line) ∧ f.buf ≤ start ∧
      start + (firstWord line).length < f.buf + 256 := by
  have hbu := f.buf_user
  have htop : procUserVaTop ≤ kernelVa := by decide
  have hkernel : kernelVa < 4294967296 := by decide
  obtain ⟨m, start, more, hsplit, hlow, hhigh, hw, hframe⟩ := strSplit_first hline hnul
    (by omega) hfuel hword (show 0 < maxArgs by decide)
  have hmounted : Mounted (s.withMem m) blobs := h.withMem fun a ha => hframe a (by omega)
  have hfree : (0 : UInt8) ∉ firstWord line := fun hmem =>
    hnul ((List.dropWhile_sublist isBlank).mem ((List.takeWhile_sublist isWordByte).mem hmem))
  have hfind := findCommand_eq hw (by omega) hfree (by decide +kernel) hcmd 0
  refine ⟨m, start, ?_, hmounted, hw, hlow, by omega⟩
  unfold shellRound
  rw [hsplit]
  show (findCommand m start shellCommands 0 >>= _) = _
  rw [hfind]
  show some (scanBlobs f start s.blobCount 0 (s.withMem m)) = _
  rw [h.count]

/-- For a mounted set of blobs and a word that is no command, the shell dispatches right exactly
when no executable blob whose name is a mere prefix of the word, and no other blob with the very
name, stands before the one to run. -/
theorem shell_dispatch_iff (h : Mounted s blobs) (hva : kernelVa ≤ s.heap.heap.base)
    (hshort : ∀ b ∈ blobs, b.name.length < 256) (hnames : ∀ b ∈ blobs, (0 : UInt8) ∉ b.name)
    {fuel : ℕ} {line : List UInt8} (hline : IsCString s.heap.heap.mem f.buf line)
    (hlen : line.length < 256) (hnul : (0 : UInt8) ∉ line) (hword : firstWord line ≠ [])
    (hcmd : firstWord line ∉ shellCommands) (hfuel : line.length < fuel) :
    DispatchRight f fuel s blobs (firstWord line) ↔ PrefixesAside blobs (firstWord line) := by
  obtain ⟨m, start, hround, hmounted, hw, hlow, hhigh⟩ :=
    shellRound_scan h hva hline hlen hnul hword hcmd hfuel
  have hfree : (0 : UInt8) ∉ firstWord line := fun hmem =>
    hnul ((List.dropWhile_sublist isBlank).mem ((List.takeWhile_sublist isWordByte).mem hmem))
  generalize firstWord line = w at *
  obtain ⟨m', hmounted', hscan⟩ := scanBlobs_eq hshort hnames hfree hlow hhigh blobs.length
    (Nat.zero_add _) hmounted hva hw
  rw [List.drop_zero] at hscan
  have hexact : ∀ b : MkfsBlob, (b.flags == 1 && b.name == w) = true →
      (b.flags == 1 && b.name.isPrefixOf w) = true := by
    intro b hb
    obtain ⟨hflags, hname⟩ := (Bool.and_eq_true _ _).mp hb
    rw [hflags, beq_iff_eq.mp hname, Bool.true_and]
    exact List.isPrefixOf_iff_prefix.mpr (List.prefix_refl w)
  unfold DispatchRight PrefixesAside firstExecutable
  cases hfind : blobs.findIdx? fun b => b.flags == 1 && b.name.isPrefixOf w with
  | none =>
    rw [hfind] at hscan
    obtain ⟨hscan, hw'⟩ := hscan
    have hno : (blobs.findIdx? fun b => b.flags == 1 && b.name == w) = none := by
      rw [List.findIdx?_eq_none_iff] at hfind ⊢
      intro b hb
      exact Bool.eq_false_iff.mpr fun heq => Bool.eq_false_iff.mp (hfind b hb) (hexact b heq)
    refine iff_of_true ⟨_, _, hround.trans (congrArg some hscan), ?_⟩ fun i hi => nomatch hi
    rw [hno]
    exact ⟨start, rfl, hw'⟩
  | some i =>
    rw [hfind] at hscan
    simp only [Nat.zero_add] at hscan
    obtain ⟨hscan, hstring⟩ := hscan
    obtain ⟨hlt, hprefix, hbefore⟩ := List.findIdx?_eq_some_iff_getElem.mp hfind
    have hrun := hround.trans (congrArg some hscan)
    constructor
    · rintro ⟨t, action, hrun', hright⟩ j hj
      obtain rfl := Option.some.inj hj
      obtain ⟨rfl, rfl⟩ := Prod.mk.inj (Option.some.inj (hrun.symm.trans hrun'))
      cases hfirst : blobs.findIdx? fun b => b.flags == 1 && b.name == w with
      | none =>
        rw [hfirst] at hright
        obtain ⟨p, hp, -⟩ := hright
        exact nomatch hp
      | some k =>
        rw [hfirst] at hright
        obtain ⟨hk, -, htarget⟩ := hright
        obtain rfl := ShellAction.exec.inj hk
        obtain ⟨_, hname, _⟩ := List.findIdx?_eq_some_iff_getElem.mp hfirst
        have hname' := ((Bool.and_eq_true _ _).mp hname).2
        rw [hmounted'.fsFind_eq hfree] at htarget
        cases hnamed : blobs.findIdx? fun b => b.name == w with
        | none =>
          rw [List.findIdx?_eq_none_iff] at hnamed
          exact absurd hname' (Bool.eq_false_iff.mp (hnamed _ (List.getElem_mem hlt)))
        | some k =>
          rw [hnamed] at htarget
          obtain ⟨hk, -⟩ := List.findIdx?_eq_some_iff_getElem.mp hnamed
          rw [fsBlobAddr_inj hmounted' hk hlt htarget]
    · intro hok
      have hnamed := hok i rfl
      obtain ⟨_, hname, _⟩ := List.findIdx?_eq_some_iff_getElem.mp hnamed
      have hfirst : (blobs.findIdx? fun b => b.flags == 1 && b.name == w) = some i := by
        rw [List.findIdx?_eq_some_iff_getElem]
        refine ⟨hlt, ?_, fun j hj hboth => hbefore j hj (hexact _ hboth)⟩
        rw [((Bool.and_eq_true _ _).mp hprefix).1, hname]
        rfl
      refine ⟨_, _, hrun, ?_⟩
      rw [hfirst]
      refine ⟨rfl, ?_, ?_⟩
      · have hthis := hstring _ (List.getElem?_eq_getElem hlt)
        rwa [beq_iff_eq.mp hname] at hthis
      · rw [hmounted'.fsFind_eq hfree, hnamed]

/-- The executables `a` and `ab`, and their image. -/
def twoPrograms : List MkfsBlob := [⟨[97], [], 1⟩, ⟨[97, 98], [], 1⟩]

def twoProgramsImage : List UInt8 := (Mkfs.buildFs twoPrograms).getD []

theorem twoPrograms_built : Mkfs.buildFs twoPrograms = some twoProgramsImage := by decide +kernel

/-- A frame of the shell. -/
def shellFrame : ShellFrame :=
  ⟨0x1000, 0x2000, 0x3000, by decide, by decide, by decide, by decide, by decide, by decide,
    by decide⟩

/-- The line is in the shell's buffer. -/
def typed (s : Fs) (line : List UInt8) : Fs :=
  s.withMem (s.heap.heap.mem.put 0x1000 (line ++ [0]).length fun j => (line ++ [0]).getD j 0)

theorem typed_line (s : Fs) (line : List UInt8) :
    IsCString (typed s line).heap.heap.mem shellFrame.buf line := by
  have hstored : (typed s line).heap.heap.mem.Stored 0x1000 (line ++ [0]) :=
    put_stored s.heap.heap.mem 0x1000 (line ++ [0])
  obtain ⟨hline, hzero⟩ := stored_append.mp hstored
  exact ⟨hline, (stored_cons.mp hzero).1⟩

/-- The line `a` runs the first of the two. -/
theorem shell_runs_a : ∃ t, unmounted.fsMount (goodDisk twoProgramsImage) 0 = some (t, true) ∧
    DispatchRight shellFrame 10 (typed t [97]) twoPrograms [97] := by
  have htest : ((unmounted.fsMount (goodDisk twoProgramsImage) 0).any fun r => r.2) = true := by
    decide +kernel
  obtain ⟨⟨t, ok⟩, ht, rfl⟩ := (Option.any_eq_true _ _).mp htest
  obtain ⟨hmounted, hbase⟩ := mounted_of_goodDisk twoPrograms_built ht
  have hva : kernelVa ≤ (typed t [97]).heap.heap.base := by
    show kernelVa ≤ t.heap.heap.base
    rw [hbase]
    decide
  have htyped : Mounted (typed t [97]) twoPrograms := hmounted.withMem fun a ha =>
    put_agree _ _ _ _ (show a + 1 ≤ 0x1000 ∨ 0x1000 + 2 ≤ a by rw [hbase] at ha; omega) a
      (le_refl _) (Nat.lt_succ_self a)
  refine ⟨t, ht, ?_⟩
  show DispatchRight shellFrame 10 (typed t [97]) twoPrograms (firstWord [97])
  apply (shell_dispatch_iff htyped hva (by decide) (by decide) (typed_line t [97]) (by decide)
    (by decide) (by decide) (by decide) (by decide)).mpr
  intro i hi
  obtain rfl : 0 = i := Option.some.inj hi
  rfl

/-- The line `ab` runs `a`, whose name it starts with, and not `ab`. -/
theorem shell_runs_prefix : Mkfs.buildFs twoPrograms = some twoProgramsImage ∧
    ∃ t, unmounted.fsMount (goodDisk twoProgramsImage) 0 = some (t, true) ∧
      IsCString (typed t [97, 98]).heap.heap.mem shellFrame.buf [97, 98] ∧
      ¬DispatchRight shellFrame 10 (typed t [97, 98]) twoPrograms [97, 98] := by
  have htest : ((unmounted.fsMount (goodDisk twoProgramsImage) 0).any fun r => r.2 &&
      decide ((shellRound shellFrame 10 (typed r.1 [97, 98])).map Prod.snd =
        some (.exec 0))) = true := by decide +kernel
  obtain ⟨⟨t, ok⟩, ht, hok⟩ := (Option.any_eq_true _ _).mp htest
  obtain ⟨rfl, hfirst⟩ := (Bool.and_eq_true _ _).mp hok
  refine ⟨twoPrograms_built, t, ht, typed_line t _, ?_⟩
  rintro ⟨t', action, hrun, hright⟩
  have hexec : action = .exec 0 := by
    have hmap := of_decide_eq_true hfirst
    dsimp only at hmap
    rw [hrun] at hmap
    exact Option.some.inj hmap
  have hsecond : firstExecutable twoPrograms [97, 98] = some 1 := rfl
  rw [hsecond] at hright
  obtain ⟨hone, -⟩ := hright
  exact absurd (hexec.symm.trans hone) (by decide)

end Leg

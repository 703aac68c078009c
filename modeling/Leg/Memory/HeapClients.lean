import Leg.Memory.KernelHeapFrame
import Leg.Memory.KernelHeapRun

/-! The kernel heap as its clients use it: buffers that are got, written, copied and given back,
and what each of these leaves of the others. -/
namespace Leg
open Memory

namespace HeapState

/-- `kmalloc`, and the buffer it gives; a null pointer is a buffer at 0. -/
def kmalloc (st : HeapState) (size : ℕ) : Option (HeapState × Client) :=
  (st.heap.kmalloc size).map fun r => (st.gain size r, ⟨r.2, size⟩)

def kfree (st : HeapState) (c : Client) : Option HeapState :=
  (st.heap.kfree c.ptr).map fun h => ⟨h, st.live.erase c⟩

def put (st : HeapState) (dst n : ℕ) (f : ℕ → UInt8) : HeapState :=
  { st with heap := { st.heap with mem := st.heap.mem.put dst n f } }

/-- `memcpy` of `n` bytes from `src + off` to the start of `dst`, within both. -/
def memcpy (st : HeapState) (dst src : Client) (off n : ℕ) : Option HeapState :=
  if n ≤ dst.bytes ∧ off + n ≤ src.bytes then
    some (st.put dst.ptr n fun k => st.heap.mem (src.ptr + off + k))
  else none

def Ok (st : HeapState) : Prop := HeapOk st.heap st.live

/-- The buffer's bytes keep their values. -/
def Keeps (st st' : HeapState) (c : Client) : Prop :=
  Agree st.heap.mem st'.heap.mem c.ptr (c.ptr + c.bytes)

/-- The first `n` bytes of the buffer are those of `f`. -/
def Holds (st : HeapState) (c : Client) (n : ℕ) (f : ℕ → UInt8) : Prop :=
  ∀ k < n, st.heap.mem (c.ptr + k) = f k

variable {st st' : HeapState} {c d : Client} {size n : ℕ} {f : ℕ → UInt8}

theorem Keeps.trans {st₂ : HeapState} (h : Keeps st st' c) (h' : Keeps st' st₂ c) :
    Keeps st st₂ c :=
  Agree.trans h h'

theorem Holds.keep (h : st.Holds c n f) (hn : n ≤ c.bytes) (hk : Keeps st st' c) :
    st'.Holds c n f := fun k hkn =>
  (hk (c.ptr + k) (Nat.le_add_right _ _) (by omega)).trans (h k hkn)

theorem Ok.apart (h : st.Ok) (hc : c ∈ st.live) (hd : d ∈ st.live) (hne : c ≠ d) :
    c.ptr + c.bytes ≤ d.ptr ∨ d.ptr + d.bytes ≤ c.ptr := by
  obtain ⟨hdrs, hwf⟩ := HeapOk.wf h
  have : Std.Symm fun c d : Client => c.ptr + c.bytes ≤ d.ptr ∨ d.ptr + d.bytes ≤ c.ptr :=
    ⟨fun _ _ h => h.symm⟩
  exact hwf.disjoint.forall hc hd hne

/-- The heap with a buffer more. -/
structure Gained (st st' : HeapState) (c : Client) : Prop where
  ok : st'.Ok
  live : st'.live = c :: st.live
  fresh : c ∉ st.live
  keeps : ∀ d ∈ st.live, Keeps st st' d

/-- Every `kmalloc` returns: null and the heap as it was, or a buffer, which is a new one if the
size does not wrap when it is rounded. -/
theorem Ok.kmalloc (h : st.Ok) (size : ℕ) : st.kmalloc size = some (st, ⟨0, size⟩) ∨
    ∃ st' c, st.kmalloc size = some (st', c) ∧ c.ptr ≠ 0 ∧ c.bytes = size ∧
      (size + 7 < 4294967296 → Gained st st' c) := by
  by_cases hsize : size + 7 < 4294967296
  · rcases kmalloc_heapOk h hsize with hr | ⟨t, p, hr, hp, -, ht⟩
    · left
      simp only [HeapState.kmalloc, hr, Option.map_some, gain, if_true]
    · right
      have hgain : st.gain size (t, p) = ⟨t, ⟨p, size⟩ :: st.live⟩ := by
        rw [gain, if_neg hp]
      refine ⟨⟨t, ⟨p, size⟩ :: st.live⟩, ⟨p, size⟩, ?_, hp, rfl, fun _ => ⟨ht, rfl, fun hmem => ?_,
        fun d hd => kmalloc_agree h hr hd⟩⟩
      · simp only [HeapState.kmalloc, hr, Option.map_some, hgain]
      · have hnodup := ht.ptrs_nodup
        rw [List.map_cons, List.nodup_cons] at hnodup
        exact hnodup.1 (List.mem_map_of_mem hmem)
  · obtain ⟨r, hr, hnull⟩ : ∃ r, st.heap.kmalloc size = some r ∧ (r.2 = 0 → r = (st.heap, 0)) :=
      kmalloc_returns h size
    by_cases hp : r.2 = 0
    · left
      simp only [HeapState.kmalloc, hr, Option.map_some, hnull hp, gain, if_true]
    · right
      exact ⟨st.gain size r, ⟨r.2, size⟩,
        by simp only [HeapState.kmalloc, hr, Option.map_some], hp, rfl,
        fun hc => absurd hc hsize⟩

theorem Ok.kfree (h : st.Ok) (hc : c ∈ st.live) : ∃ st', st.kfree c = some st' ∧ st'.Ok ∧
    st'.live = st.live.erase c ∧ ∀ d ∈ st.live, Keeps st st' d := by
  obtain ⟨t, ht, -, hok⟩ := kfree_heapOk h hc
  exact ⟨⟨t, st.live.erase c⟩, by simp only [HeapState.kfree, ht, Option.map_some], hok, rfl,
    fun d hd => kfree_agree h hc ht hd⟩

theorem Ok.put (h : st.Ok) (hc : c ∈ st.live) (hn : n ≤ c.bytes) (f : ℕ → UInt8) :
    (st.put c.ptr n f).Ok ∧ (st.put c.ptr n f).live = st.live ∧ (st.put c.ptr n f).Holds c n f ∧
      ∀ d ∈ st.live, d ≠ c → Keeps st (st.put c.ptr n f) d := by
  refine ⟨HeapOk.overwrite h hc fun lo hi hout => put_agree _ _ _ _ (by omega), rfl,
    fun k hk => put_get _ _ _ hk, fun d hd hne => put_agree _ _ _ _ ?_⟩
  have := h.apart hd hc hne
  omega

theorem Ok.memcpy {src : Client} {off : ℕ} (h : st.Ok) (hc : c ∈ st.live) (hn : n ≤ c.bytes)
    (hsrc : off + n ≤ src.bytes) {g : ℕ → UInt8} (hg : st.Holds src (off + n) g) :
    ∃ st', st.memcpy c src off n = some st' ∧ st'.Ok ∧ st'.live = st.live ∧
      st'.Holds c n (fun k => g (off + k)) ∧ ∀ d ∈ st.live, d ≠ c → Keeps st st' d := by
  obtain ⟨hok, hlive, hholds, hkeeps⟩ := h.put hc hn fun k => st.heap.mem (src.ptr + off + k)
  refine ⟨_, if_pos ⟨hn, hsrc⟩, hok, hlive, fun k hk => ?_, hkeeps⟩
  rw [hholds k hk]
  dsimp only
  rw [Nat.add_assoc, hg (off + k) (by omega)]

end HeapState

end Leg

import Mathlib.Data.List.Induction
import MoltarOS.Lib.Memory

/-!
# The memory map of the boot loader

`kernel/multiboot.h`: `multiboot_RAM` walks the entries of the map and keeps the low words of
the start and of the length of the last entry of RAM type.

## What is proved

* `walk_forward_iff` — the walk returns and moves strictly forward exactly when the entries are
  `Strided`: the sizes, followed from the start of the buffer, never take the address round the top of the
  address space and never give an empty step.
* `multibootRAM_tiles` — on a map that is tiled by its entries the walk is a fold over them, which keeps the
  last RAM entry.
* `multibootRAM_sound_iff` — so the range that it reports is RAM exactly when that entry lies below 4 GB
  (`LowRam`), or other RAM entries happen to cover what its low words name.

Physical addresses are natural numbers here, the entry at `p` being read at `0xC0000000 + p`.
-/

namespace MoltarOS.Kernel

open MoltarOS.Lib MoltarOS.Lib.Word

/-! ### The code -/

/-- `MULTIBOOT_MMAP_RAM`. -/
def MULTIBOOT_MMAP_RAM : UInt32 := 1

/-- `struct multiboot_info`, as far as it is read. -/
structure MultibootInfo where
  /-- Determines what information is available. -/
  flags : UInt32
  /-- The size of the buffer of memory mappings. -/
  mmapLength : UInt32
  /-- The physical address of that buffer. -/
  mmapAddr : UInt32

/-- `struct multiboot_mmap`. -/
structure MultibootMmap where
  /-- Size of this entry, without this field. -/
  size : UInt32
  /-- The start address, low word. -/
  startLow : UInt32
  /-- The start address, high word. -/
  startHigh : UInt32
  /-- The length of this mapping, low word. -/
  lengthLow : UInt32
  /-- The length of this mapping, high word. -/
  lengthHigh : UInt32
  /-- RAM or some reserved area. -/
  type : UInt32
  deriving DecidableEq

/-- The entry that the pointer `mmap` points to. -/
def mmapAt (m : Mem) (mmap : UInt32) : MultibootMmap where
  size := m.load32 mmap
  startLow := m.load32 (mmap + 4)
  startHigh := m.load32 (mmap + 8)
  lengthLow := m.load32 (mmap + 12)
  lengthHigh := m.load32 (mmap + 16)
  type := m.load32 (mmap + 20)

/-- `found`, `*start` and `*end`. -/
structure Ram where
  /-- Whether a RAM entry was found. -/
  found : Bool
  /-- `*start`. -/
  start : UInt32
  /-- `*end`. -/
  stop : UInt32

/-- `mbinfo->flags & (1 << 6)`. -/
def MultibootInfo.hasMmap (mbinfo : MultibootInfo) : Bool := decide (mbinfo.flags &&& (1 : UInt32) <<< 6 ≠ 0)

/-- `(uint32_t) mmap - 0xC0000000 < (mbinfo->mmap_addr + mbinfo->mmap_length)`. -/
def MultibootInfo.more (mbinfo : MultibootInfo) (mmap : UInt32) : Bool :=
  decide (mmap - 0xC0000000 < mbinfo.mmapAddr + mbinfo.mmapLength)

/-- The body of the loop, before the next entry. -/
def Ram.entry (r : Ram) (mmap : MultibootMmap) : Ram :=
  if mmap.type = MULTIBOOT_MMAP_RAM then ⟨true, mmap.startLow, mmap.startLow + mmap.lengthLow⟩ else r

/-- `mmap = (struct multiboot_mmap *) ((uint32_t) mmap + mmap->size + sizeof(mmap->size));`. -/
def nextMmap (m : Mem) (mmap : UInt32) : UInt32 := mmap + (mmapAt m mmap).size + 4

/-- The loop of `multiboot_RAM`; `none` when `fuel` turns are not enough. -/
def walk (m : Mem) (mbinfo : MultibootInfo) : ℕ → UInt32 → Ram → Option Ram
  | 0, _, _ => none
  | fuel + 1, mmap, r =>
    if mbinfo.more mmap then walk m mbinfo fuel (nextMmap m mmap) (r.entry (mmapAt m mmap)) else some r

/-- `multiboot_RAM(mbinfo, start, end)`. -/
def multibootRAM (m : Mem) (mbinfo : MultibootInfo) (start stop : UInt32) (fuel : ℕ) : Option Ram :=
  if mbinfo.hasMmap then walk m mbinfo fuel (0xC0000000 + mbinfo.mmapAddr) ⟨false, start, stop⟩
  else some ⟨false, start, stop⟩

/-- The call returns `r`. -/
def Returns (m : Mem) (mbinfo : MultibootInfo) (start stop : UInt32) (r : Ram) : Prop :=
  ∃ fuel, multibootRAM m mbinfo start stop fuel = some r

/-- The entries that the walk gets to. -/
inductive Visits (m : Mem) (mbinfo : MultibootInfo) : UInt32 → Prop
  | first : mbinfo.hasMmap → Visits m mbinfo (0xC0000000 + mbinfo.mmapAddr)
  | next {mmap : UInt32} : Visits m mbinfo mmap → mbinfo.more mmap → Visits m mbinfo (nextMmap m mmap)

/-! ### Physical addresses -/

/-- The pointer to the entry at a physical address. -/
def pointer (p : ℕ) : UInt32 := 0xC0000000 + UInt32.ofNat p

/-- How far the entry at `p` says that the next one is. -/
def stride (m : Mem) (p : ℕ) : ℕ := ((mmapAt m (pointer p)).size + 4).toNat

/-- The end of the buffer, as the loop computes it. -/
def MultibootInfo.limit (mbinfo : MultibootInfo) : ℕ := (mbinfo.mmapAddr + mbinfo.mmapLength).toNat

theorem pointer_mmapAddr (mbinfo : MultibootInfo) : pointer mbinfo.mmapAddr.toNat = 0xC0000000 + mbinfo.mmapAddr := by
  rw [pointer, UInt32.ofNat_toNat]

theorem toNat_pointer_sub (p : ℕ) : (pointer p - 0xC0000000).toNat = p % 2 ^ 32 := by
  have hsub : pointer p - 0xC0000000 = UInt32.ofNat p := by grind [pointer]
  rw [hsub, UInt32.toNat_ofNat']

theorem more_pointer (mbinfo : MultibootInfo) {p : ℕ} (hp : p < 2 ^ 32) :
    mbinfo.more (pointer p) ↔ p < mbinfo.limit := by
  rw [MultibootInfo.more, decide_eq_true_eq, UInt32.lt_iff_toNat_lt, toNat_pointer_sub, Nat.mod_eq_of_lt hp,
    MultibootInfo.limit]

theorem nextMmap_pointer (m : Mem) (p : ℕ) : nextMmap m (pointer p) = pointer (p + stride m p) := by
  have hsize : UInt32.ofNat (stride m p) = (mmapAt m (pointer p)).size + 4 := by rw [stride, UInt32.ofNat_toNat]
  rw [nextMmap, pointer, pointer, UInt32.ofNat_add, hsize]
  grind [pointer]

/-- A step is forward if it is not empty and does not go round. -/
theorem lt_nextMmap (m : Mem) {p : ℕ} (hp : p < 2 ^ 32) :
    pointer p - 0xC0000000 < nextMmap m (pointer p) - 0xC0000000 ↔ 0 < stride m p ∧ p + stride m p < 2 ^ 32 := by
  have hlt : stride m p < 2 ^ 32 := UInt32.toNat_lt _
  rw [UInt32.lt_iff_toNat_lt, nextMmap_pointer, toNat_pointer_sub, toNat_pointer_sub]
  omega

/-! ### Termination -/

/-- Following the sizes from `p` to the end of the buffer, no step is empty or goes round the top of the
address space. -/
inductive Strided (m : Mem) (limit : ℕ) : ℕ → Prop
  | past {p : ℕ} : limit ≤ p → Strided m limit p
  | entry {p : ℕ} : p < limit → 0 < stride m p → p + stride m p < 2 ^ 32 → Strided m limit (p + stride m p) →
    Strided m limit p

theorem Strided.walk {m : Mem} {mbinfo : MultibootInfo} {p : ℕ} (h : Strided m mbinfo.limit p)
    (hp : p < 2 ^ 32) (r : Ram) :
    ∃ fuel r', walk m mbinfo fuel (pointer p) r = some r' := by
  induction h generalizing r with
  | @past p hpast =>
    refine ⟨1, r, ?_⟩
    rw [Kernel.walk, if_neg fun hmore => absurd ((more_pointer mbinfo hp).mp hmore) (by omega)]
  | @entry p hlt _ hnext _ ih =>
    obtain ⟨fuel, r', hr⟩ := ih hnext (r.entry (mmapAt m (pointer p)))
    refine ⟨fuel + 1, r', ?_⟩
    rw [Kernel.walk, if_pos ((more_pointer mbinfo hp).mpr hlt), nextMmap_pointer, hr]

/-- Every entry the walk gets to is one of those followed. -/
theorem Strided.visits {m : Mem} {mbinfo : MultibootInfo} (h : Strided m mbinfo.limit mbinfo.mmapAddr.toNat)
    {mmap : UInt32} (hv : Visits m mbinfo mmap) : ∃ p, p < 2 ^ 32 ∧ mmap = pointer p ∧ Strided m mbinfo.limit p := by
  induction hv with
  | first => exact ⟨_, mbinfo.mmapAddr.toNat_lt, (pointer_mmapAddr mbinfo).symm, h⟩
  | next _ hmore ih =>
    obtain ⟨p, hp, rfl, hs⟩ := ih
    have hlt := (more_pointer mbinfo hp).mp hmore
    cases hs with
    | past hpast => omega
    | entry _ _ hnext hrest => exact ⟨_, hnext, nextMmap_pointer m p, hrest⟩

/-- The walk goes forward at every step. -/
def Forward (m : Mem) (mbinfo : MultibootInfo) : Prop :=
  ∀ mmap, Visits m mbinfo mmap → mbinfo.more mmap → mmap - 0xC0000000 < nextMmap m mmap - 0xC0000000

/-- What goes forward gets to the end of the buffer. -/
theorem Forward.strided {m : Mem} {mbinfo : MultibootInfo} (h : Forward m mbinfo) {p : ℕ} (hp : p < 2 ^ 32)
    (hv : Visits m mbinfo (pointer p)) : Strided m mbinfo.limit p := by
  -- each step takes something off what is left of the buffer
  induction hn : mbinfo.limit - p using Nat.strong_induction_on generalizing p with
  | _ n ih =>
    by_cases hlt : p < mbinfo.limit
    · have hmore := (more_pointer mbinfo hp).mpr hlt
      obtain ⟨hpos, hnext⟩ := (lt_nextMmap m hp).mp (h _ hv hmore)
      have hrest := ih _ (by omega) hnext (nextMmap_pointer m p ▸ hv.next hmore) rfl
      exact .entry hlt hpos hnext hrest
    · exact .past (not_lt.mp hlt)

/-- **The walk of `multiboot_RAM` returns, every step of it strictly forward**, exactly if the entries
it is led to by the sizes are strided. -/
theorem walk_forward_iff (m : Mem) (mbinfo : MultibootInfo) (start stop : UInt32) :
    (∃ r, Returns m mbinfo start stop r) ∧ Forward m mbinfo ↔
      (mbinfo.hasMmap → Strided m mbinfo.limit mbinfo.mmapAddr.toNat) := by
  have haddr := mbinfo.mmapAddr.toNat_lt
  constructor
  · rintro ⟨-, hfwd⟩ hflag
    exact hfwd.strided haddr ((pointer_mmapAddr mbinfo).symm ▸ .first hflag)
  · intro hs
    by_cases hflag : mbinfo.hasMmap
    · obtain ⟨fuel, r, hr⟩ := (hs hflag).walk haddr ⟨false, start, stop⟩
      rw [pointer_mmapAddr] at hr
      refine ⟨⟨r, fuel, by rw [multibootRAM, if_pos hflag, hr]⟩, fun mmap hv hmore => ?_⟩
      obtain ⟨p, hp, rfl, hsp⟩ := (hs hflag).visits hv
      have hlt := (more_pointer mbinfo hp).mp hmore
      cases hsp with
      | past hpast => omega
      | entry _ hpos hnext _ => exact (lt_nextMmap m hp).mpr ⟨hpos, hnext⟩
    · refine ⟨⟨_, 0, by rw [multibootRAM, if_neg hflag]⟩, fun mmap hv => ?_⟩
      have hnone : mbinfo.hasMmap := by
        induction hv with
        | first h => exact h
        | next _ _ ih => exact ih
      exact absurd hnone hflag

/-- A buffer of one entry whose size field is `0xFFFFFFFC`: the next entry is the same one. -/
theorem not_returns_stuck :
    ¬∃ r, Returns (Mem.store32 (fun _ => 0) 0xC0009000 0xFFFFFFFC) ⟨64, 24, 0x9000⟩ 0 0 r := by
  have hnext : nextMmap (Mem.store32 (fun _ => 0) 0xC0009000 0xFFFFFFFC) 0xC0009000 = 0xC0009000 := by decide +kernel
  have hwalk : ∀ fuel r, walk (Mem.store32 (fun _ => 0) 0xC0009000 0xFFFFFFFC) ⟨64, 24, 0x9000⟩ fuel 0xC0009000
      r = none := by
    intro fuel
    induction fuel with
    | zero => exact fun _ => rfl
    | succ fuel ih =>
      intro r
      rw [walk, if_pos (by decide), hnext]
      exact ih _
  rintro ⟨r, fuel, hr⟩
  rw [multibootRAM, if_pos (by decide), show (0xC0000000 : UInt32) + 0x9000 = 0xC0009000 by decide, hwalk] at hr
  cases hr

/-! ### The range of the RAM -/

namespace MultibootMmap

variable (e : MultibootMmap)

/-- An entry of RAM type. -/
def IsRam : Prop := e.type = MULTIBOOT_MMAP_RAM

instance : DecidablePred IsRam := fun e => inferInstanceAs (Decidable (e.type = MULTIBOOT_MMAP_RAM))

/-- The 64-bit start. -/
def start : ℕ := e.startLow.toNat + 2 ^ 32 * e.startHigh.toNat

/-- The 64-bit length. -/
def length : ℕ := e.lengthLow.toNat + 2 ^ 32 * e.lengthHigh.toNat

/-- A physical address belongs to the entry. -/
def Covers (a : ℕ) : Prop := e.start ≤ a ∧ a < e.start + e.length

end MultibootMmap

/-- The entries `es`, one after the other, fill the buffer from `p` to `stop`. -/
inductive Tiles (m : Mem) (stop : ℕ) : ℕ → List MultibootMmap → Prop
  | done : Tiles m stop stop []
  | entry {p : ℕ} {es : List MultibootMmap} : 20 ≤ (mmapAt m (pointer p)).size.toNat →
    Tiles m stop (p + ((mmapAt m (pointer p)).size.toNat + 4)) es → Tiles m stop p (mmapAt m (pointer p) :: es)

theorem Tiles.le {m : Mem} {stop p : ℕ} {es : List MultibootMmap} (h : Tiles m stop p es) : p ≤ stop := by
  induction h with
  | done => exact Nat.le_refl stop
  | entry _ _ ih => omega

/-- The walk over a tiled buffer is a fold over the entries. -/
theorem Tiles.walk {m : Mem} {mbinfo : MultibootInfo} {p : ℕ} {es : List MultibootMmap}
    (h : Tiles m mbinfo.limit p es) (r : Ram) :
    Kernel.walk m mbinfo (es.length + 1) (pointer p) r = some (es.foldl Ram.entry r) := by
  have hlimit : mbinfo.limit < 2 ^ 32 := UInt32.toNat_lt _
  induction h generalizing r with
  | done =>
    rw [Kernel.walk, if_neg fun hmore => absurd ((more_pointer mbinfo hlimit).mp hmore) (Nat.lt_irrefl _)]
    rfl
  | @entry p es hsize hrest ih =>
    have hle := hrest.le
    have hstride : stride m p = (mmapAt m (pointer p)).size.toNat + 4 := toNat_add_of_lt (b := 4) (by
      rw [show (4 : UInt32).toNat = 4 from rfl]
      omega)
    rw [List.length_cons, Kernel.walk, if_pos ((more_pointer mbinfo (by omega)).mpr (by omega)),
      nextMmap_pointer, hstride]
    exact ih (r.entry (mmapAt m (pointer p)))

/-- The last entry of RAM type. -/
def lastRam (es : List MultibootMmap) : Option MultibootMmap := (es.filter (MultibootMmap.IsRam ·)).getLast?

theorem lastRam_isSome {es : List MultibootMmap} (h : ∃ e ∈ es, e.IsRam) : ∃ e, lastRam es = some e := by
  obtain ⟨e, he, hram⟩ := h
  have hmem : e ∈ es.filter (MultibootMmap.IsRam ·) := List.mem_filter.mpr ⟨he, decide_eq_true hram⟩
  exact ⟨_, List.getLast?_eq_some_getLast (List.ne_nil_of_mem hmem)⟩

theorem mem_of_lastRam {es : List MultibootMmap} {e : MultibootMmap} (h : lastRam es = some e) : e ∈ es ∧ e.IsRam := by
  have hmem := List.mem_filter.mp (List.mem_of_getLast? h)
  exact ⟨hmem.1, of_decide_eq_true hmem.2⟩

/-- What the fold keeps. -/
theorem foldl_entry (es : List MultibootMmap) (r : Ram) :
    es.foldl Ram.entry r = match lastRam es with
      | some e => ⟨true, e.startLow, e.startLow + e.lengthLow⟩
      | none => r := by
  induction es using List.reverseRecOn with
  | nil => rfl
  | append_singleton es e ih =>
    rw [List.foldl_append, List.foldl_cons, List.foldl_nil, lastRam, List.filter_append, ih]
    by_cases he : e.IsRam
    · rw [List.filter_cons_of_pos (by simpa using he), List.filter_nil, List.getLast?_concat]
      exact if_pos he
    · rw [List.filter_cons_of_neg (by simpa using he), List.filter_nil, List.append_nil]
      exact if_neg he

/-- More fuel gives the same result. -/
theorem walk_unique {m : Mem} {mbinfo : MultibootInfo} {f g : ℕ} {mmap : UInt32} {r a b : Ram}
    (ha : walk m mbinfo f mmap r = some a) (hb : walk m mbinfo g mmap r = some b) : a = b := by
  induction f generalizing g mmap r with
  | zero => cases ha
  | succ f ih =>
    cases g with
    | zero => cases hb
    | succ g =>
      rw [walk] at ha hb
      by_cases hmore : mbinfo.more mmap
      · rw [if_pos hmore] at ha hb
        exact ih ha hb
      · rw [if_neg hmore] at ha hb
        exact Option.some.inj (ha.symm.trans hb)

section Tiled

variable {m : Mem} {mbinfo : MultibootInfo} {es : List MultibootMmap} {start stop : UInt32} {r : Ram}

/-- Without a map nothing is found. -/
theorem returns_of_not_hasMmap (hflag : ¬mbinfo.hasMmap) :
    Returns m mbinfo start stop r ↔ r = ⟨false, start, stop⟩ := by
  constructor
  · rintro ⟨fuel, hr⟩
    rw [multibootRAM, if_neg hflag] at hr
    exact (Option.some.inj hr).symm
  · rintro rfl
    exact ⟨0, by rw [multibootRAM, if_neg hflag]⟩

theorem returns_iff_of_walk (hflag : mbinfo.hasMmap) {fuel : ℕ} {r' : Ram}
    (h : walk m mbinfo fuel (pointer mbinfo.mmapAddr.toNat) ⟨false, start, stop⟩ = some r') :
    Returns m mbinfo start stop r ↔ r = r' := by
  rw [pointer_mmapAddr] at h
  constructor
  · rintro ⟨f, hr⟩
    rw [multibootRAM, if_pos hflag] at hr
    exact walk_unique hr h
  · rintro rfl
    exact ⟨fuel, by rw [multibootRAM, if_pos hflag, h]⟩

/-- **On a tiled map `multiboot_RAM` returns the low words of the last RAM entry.** -/
theorem multibootRAM_tiles (hflag : mbinfo.hasMmap) (hfit : mbinfo.mmapAddr.toNat + mbinfo.mmapLength.toNat < 2 ^ 32)
    (htile : Tiles m (mbinfo.mmapAddr.toNat + mbinfo.mmapLength.toNat) mbinfo.mmapAddr.toNat es) :
    Returns m mbinfo start stop r ↔ r = match lastRam es with
      | some e => ⟨true, e.startLow, e.startLow + e.lengthLow⟩
      | none => ⟨false, start, stop⟩ := by
  have hlimit : mbinfo.limit = mbinfo.mmapAddr.toNat + mbinfo.mmapLength.toNat := toNat_add_of_lt hfit
  rw [← foldl_entry]
  exact returns_iff_of_walk hflag ((hlimit ▸ htile).walk _)

/-- When the end of the buffer is that of the address space, its sum is `0` and no entry is read. -/
theorem multibootRAM_top (hflag : mbinfo.hasMmap) (htop : mbinfo.mmapAddr.toNat + mbinfo.mmapLength.toNat = 2 ^ 32) :
    Returns m mbinfo start stop r ↔ r = ⟨false, start, stop⟩ := by
  have hlimit : mbinfo.limit = 0 := by rw [MultibootInfo.limit, UInt32.toNat_add, htop, Nat.mod_self]
  have hwalk : walk m mbinfo 1 (pointer mbinfo.mmapAddr.toNat) ⟨false, start, stop⟩ = some ⟨false, start, stop⟩ := by
    rw [walk, if_neg fun hmore => absurd ((more_pointer mbinfo mbinfo.mmapAddr.toNat_lt).mp hmore) (by omega)]
  exact returns_iff_of_walk hflag hwalk

end Tiled

/-- The low words of `e` name RAM: they do not wrap, and either `e` is below 4 GB or the RAM entries of the
map cover what they name. -/
def LowRam (es : List MultibootMmap) (e : MultibootMmap) : Prop :=
  e.startLow.toNat + e.lengthLow.toNat < 2 ^ 32 ∧
    (e.startHigh = 0 ∨ ∀ a, e.startLow.toNat ≤ a → a < e.startLow.toNat + e.lengthLow.toNat →
      ∃ e' ∈ es, e'.IsRam ∧ e'.Covers a)

/-- What is reported is a range, and one of RAM. -/
def IsRamRange (es : List MultibootMmap) (r : Ram) : Prop :=
  r.start ≤ r.stop ∧ ∀ a, r.start.toNat ≤ a → a < r.stop.toNat → ∃ e ∈ es, e.IsRam ∧ e.Covers a

theorem isRamRange_iff {es : List MultibootMmap} {e : MultibootMmap} (he : e ∈ es ∧ e.IsRam) :
    IsRamRange es ⟨true, e.startLow, e.startLow + e.lengthLow⟩ ↔ LowRam es e := by
  have hlow := e.startLow.toNat_lt
  have hlen := e.lengthLow.toNat_lt
  constructor
  · rintro ⟨hle, hcov⟩
    have hfit : e.startLow.toNat + e.lengthLow.toNat < 2 ^ 32 := by
      have hle' : e.startLow.toNat ≤ (e.startLow + e.lengthLow).toNat := UInt32.le_iff_toNat_le.mp hle
      rw [UInt32.toNat_add] at hle'
      omega
    rw [toNat_add_of_lt hfit] at hcov
    exact ⟨hfit, .inr hcov⟩
  · rintro ⟨hfit, hor⟩
    rw [IsRamRange, UInt32.le_iff_toNat_le, toNat_add_of_lt hfit]
    refine ⟨Nat.le_add_right _ _, hor.elim (fun hhigh a ha hlt => ⟨e, he.1, he.2, ?_⟩) id⟩
    change e.startLow.toNat ≤ a at ha
    rw [MultibootMmap.Covers, MultibootMmap.start, MultibootMmap.length, hhigh, UInt32.toNat_zero]
    omega

/-! ### A map with memory above 4 GB -/

/-- Write an entry. -/
def storeMmap (m : Mem) (mmap : UInt32) (e : MultibootMmap) : Mem :=
  (((((m.store32 mmap e.size).store32 (mmap + 4) e.startLow).store32 (mmap + 8) e.startHigh).store32 (mmap + 12)
    e.lengthLow).store32 (mmap + 16) e.lengthHigh).store32 (mmap + 20) e.type

/-- From 1 MB up to 2 GB. -/
def lowEntry : MultibootMmap := ⟨20, 0x100000, 0, 0x7FF00000, 0, MULTIBOOT_MMAP_RAM⟩

/-- From 4 GB up to 6 GB. -/
def highEntry : MultibootMmap := ⟨20, 0, 1, 0x80000000, 0, MULTIBOOT_MMAP_RAM⟩

/-- The two entries, in a buffer at `0x9000`. -/
def highMap : Mem := storeMmap (storeMmap (fun _ => 0) 0xC0009000 lowEntry) 0xC0009018 highEntry

theorem mmapAt_lowEntry : mmapAt highMap (pointer 0x9000) = lowEntry := by decide +kernel

theorem mmapAt_highEntry : mmapAt highMap (pointer 0x9018) = highEntry := by decide +kernel

theorem tiles_lowEntry : Tiles highMap 0x9018 0x9000 [lowEntry] := by
  rw [← mmapAt_lowEntry]
  refine .entry ?_ ?_
  · rw [mmapAt_lowEntry]
    decide
  · rw [mmapAt_lowEntry]
    exact .done

theorem tiles_highMap : Tiles highMap 0x9030 0x9000 [lowEntry, highEntry] := by
  rw [← mmapAt_lowEntry, ← mmapAt_highEntry]
  refine .entry ?_ ?_
  · rw [mmapAt_lowEntry]
    decide
  · rw [mmapAt_lowEntry]
    refine .entry (p := 0x9018) ?_ ?_
    · rw [mmapAt_highEntry]
      decide
    · rw [mmapAt_highEntry]
      exact .done

/-- **When the memory map is reported as it is**: if RAM is found, the range is RAM, and RAM below 4 GB is
found. This holds exactly if the low words of the last RAM entry name RAM; and if the buffer ends where the
address space does, if there is no RAM below 4 GB. -/
theorem multibootRAM_sound_iff (m : Mem) (mbinfo : MultibootInfo) (es : List MultibootMmap)
    (hfit : mbinfo.mmapAddr.toNat + mbinfo.mmapLength.toNat ≤ 2 ^ 32)
    (htile : Tiles m (mbinfo.mmapAddr.toNat + mbinfo.mmapLength.toNat) mbinfo.mmapAddr.toNat es) (start stop : UInt32) :
    (∀ r, Returns m mbinfo start stop r → r.found → IsRamRange es r) ∧
        (mbinfo.hasMmap → (∃ e ∈ es, e.IsRam ∧ e.start < 2 ^ 32) → ∃ r, Returns m mbinfo start stop r ∧ r.found) ↔
      (mbinfo.hasMmap →
        if mbinfo.mmapAddr.toNat + mbinfo.mmapLength.toNat < 2 ^ 32 then ∀ e, lastRam es = some e → LowRam es e
        else ∀ e ∈ es, e.IsRam → 2 ^ 32 ≤ e.start) := by
  by_cases hflag : mbinfo.hasMmap
  · rcases hfit.lt_or_eq with hlt | htop
    · simp only [multibootRAM_tiles hflag hlt htile, hlt, hflag, if_true, forall_const, forall_eq, exists_eq_left]
      cases hlast : lastRam es with
      | none =>
        have hno : ¬∃ e ∈ es, e.IsRam := fun h => by
          obtain ⟨e, he⟩ := lastRam_isSome h
          rw [hlast] at he
          cases he
        simp only [Bool.false_eq_true, false_imp_iff, true_and, reduceCtorEq, implies_true, iff_true]
        rintro ⟨e, he, hram, -⟩
        exact hno ⟨e, he, hram⟩
      | some e =>
        simp only [forall_const, isRamRange_iff (mem_of_lastRam hlast), implies_true, and_true,
          Option.some.injEq, forall_eq']
    · simp only [multibootRAM_top hflag htop, htop, hflag, if_false, forall_const, forall_eq, exists_eq_left,
        Bool.false_eq_true, false_imp_iff, true_and, lt_irrefl, imp_false, not_exists, not_and, not_lt]
  · simp only [returns_of_not_hasMmap hflag, hflag, forall_eq, Bool.false_eq_true, false_imp_iff, and_true]

/-- The map that ends at the first entry. -/
theorem multibootRAM_sound_lowEntry :
    (∀ r, Returns highMap ⟨64, 24, 0x9000⟩ 0 0 r → r.found → IsRamRange [lowEntry] r) ∧
      (MultibootInfo.hasMmap ⟨64, 24, 0x9000⟩ → (∃ e ∈ [lowEntry], e.IsRam ∧ e.start < 2 ^ 32) →
        ∃ r, Returns highMap ⟨64, 24, 0x9000⟩ 0 0 r ∧ r.found) := by
  refine (multibootRAM_sound_iff highMap ⟨64, 24, 0x9000⟩ [lowEntry] (by decide) tiles_lowEntry 0 0).mpr fun _ => ?_
  rw [if_pos (by decide)]
  rintro e he
  obtain rfl : lowEntry = e := Option.some.inj he
  exact ⟨by decide, .inl rfl⟩

/-- The whole map: what is reported is `[0, 0x80000000)`, which starts below the RAM. -/
theorem multibootRAM_highMap :
    Tiles highMap 0x9030 0x9000 [lowEntry, highEntry] ∧ Returns highMap ⟨64, 48, 0x9000⟩ 0 0 ⟨true, 0, 0x80000000⟩ ∧
      ¬IsRamRange [lowEntry, highEntry] ⟨true, 0, 0x80000000⟩ := by
  refine ⟨tiles_highMap, (multibootRAM_tiles (by decide) (by decide) tiles_highMap).mpr rfl, fun h => ?_⟩
  obtain ⟨e, he, -, hcov⟩ := h.2 0 (by decide) (by decide)
  simp only [List.mem_cons, List.not_mem_nil, or_false] at he
  rcases he with rfl | rfl
  · exact absurd hcov.1 (by decide)
  · exact absurd hcov.1 (by decide)

end MoltarOS.Kernel

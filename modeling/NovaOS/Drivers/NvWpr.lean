import NovaOS.Lib.Word
import Mathlib.Algebra.Group.Int.Defs

/-!
# The layout of the framebuffer for the GSP

Reference: `drivers/nvidia/core/wpr.c`, `drivers/nvidia/include/nv_wpr.h`.

`nv_wpr_populate_meta` places the regions one below the other from the end of the framebuffer down, and
only compares at the end. `nvWprPopulateMeta_layout` says that what it accepts is the layout of the
integers: where a subtraction underflows, the last offset is at least `2 ^ 62`.
-/

namespace NovaOS.Drivers

open NovaOS.Lib Option

/-- What `nv_wpr_populate_meta` reads of an `NvGspContext`. -/
structure NvGspContext where
  wprMetaVirt : ℕ
  radix3Phys : ℕ
  radix3FwSize : ℕ
  bootFwPhys : ℕ
  bootFwSize : ℕ
  sigPhys : ℕ
  sigSize : ℕ
  monitorCodeOffset : ℕ
  monitorDataOffset : ℕ
  manifestOffset : ℕ

/-- The offsets of the regions, from the highest to the lowest. -/
structure WprLayout (α : Type) where
  vgaWorkspaceOffset : α
  gspFwWprEnd : α
  frtsOffset : α
  bootBinOffset : α
  gspFwOffset : α
  gspFwHeapOffset : α
  gspFwWprStart : α
  nonWprHeapOffset : α

/-- The same offsets as numbers of another kind. -/
def WprLayout.map {α β : Type} (f : α → β) (l : WprLayout α) : WprLayout β :=
  ⟨f l.vgaWorkspaceOffset, f l.gspFwWprEnd, f l.frtsOffset, f l.bootBinOffset, f l.gspFwOffset,
    f l.gspFwHeapOffset, f l.gspFwWprStart, f l.nonWprHeapOffset⟩

/-- The fields of a `GspFwWprMeta` that are not zero. -/
structure GspFwWprMeta extends WprLayout ℕ where
  magic : ℕ := 0xdc3aae21371a60b3
  revision : ℕ := 1
  sysmemAddrOfRadix3Elf : ℕ
  sizeOfRadix3Elf : ℕ
  sysmemAddrOfBootloader : ℕ
  sizeOfBootloader : ℕ
  bootloaderCodeOffset : ℕ
  bootloaderDataOffset : ℕ
  bootloaderManifestOffset : ℕ
  sysmemAddrOfSignature : ℕ
  sizeOfSignature : ℕ
  gspFwRsvdStart : ℕ
  nonWprHeapSize : ℕ := 0x800000
  gspFwHeapSize : ℕ
  frtsSize : ℕ := 0x100000
  fbSize : ℕ
  vgaWorkspaceSize : ℕ := 0x20000

/-- The offsets, for a way to subtract and to align down. -/
def wprLayout {α : Type} (sub alignDown : α → ℕ → α) (fbSize : α) (bootSize fwSize : ℕ) : WprLayout α :=
  let vgaWorkspaceOffset := sub fbSize 0x20000
  let gspFwWprEnd := alignDown vgaWorkspaceOffset 0x20000
  let frtsOffset := sub gspFwWprEnd 0x100000
  let bootBinOffset := alignDown (sub frtsOffset bootSize) 0x1000
  let gspFwOffset := alignDown (sub bootBinOffset fwSize) 0x10000
  let gspFwHeapOffset := alignDown (sub gspFwOffset 0x4000000) 0x100000
  let gspFwWprStart := sub gspFwHeapOffset 0x100000
  ⟨vgaWorkspaceOffset, gspFwWprEnd, frtsOffset, bootBinOffset, gspFwOffset, gspFwHeapOffset, gspFwWprStart,
    sub gspFwWprStart 0x800000⟩

/-- `GSP_ALIGN_DOWN`, for powers of two. -/
def gspAlignDown (x a : ℕ) : ℕ := x / a * a

/-- `nv_wpr_populate_meta`: what is written at `wpr_meta`, or `none` where it returns -1. -/
def nvWprPopulateMeta (dev : ℕ) (gsp : Option NvGspContext) (fbSize : ℕ) : Option GspFwWprMeta :=
  gsp.bind fun gsp =>
    let l := wprLayout sub64 gspAlignDown fbSize gsp.bootFwSize gsp.radix3FwSize
    if dev = 0 ∨ gsp.wprMetaVirt = 0 ∨ fbSize = 0 then none
    else if gsp.radix3FwSize = 0 ∨ gsp.bootFwSize = 0 ∨ gsp.sigSize = 0 then none
    else if l.nonWprHeapOffset ≥ fbSize ∨ l.gspFwWprStart ≥ l.gspFwWprEnd then none
    else some { l with
      sysmemAddrOfRadix3Elf := gsp.radix3Phys
      sizeOfRadix3Elf := gsp.radix3FwSize
      sysmemAddrOfBootloader := gsp.bootFwPhys
      sizeOfBootloader := gsp.bootFwSize
      bootloaderCodeOffset := gsp.monitorCodeOffset
      bootloaderDataOffset := gsp.monitorDataOffset
      bootloaderManifestOffset := gsp.manifestOffset
      sysmemAddrOfSignature := gsp.sigPhys
      sizeOfSignature := gsp.sigSize
      gspFwRsvdStart := l.nonWprHeapOffset
      gspFwHeapSize := sub64 l.gspFwOffset l.gspFwHeapOffset
      fbSize := fbSize }

/-- The offsets in exact arithmetic. -/
def exactLayout (fbSize bootSize fwSize : ℕ) : WprLayout ℤ :=
  wprLayout (fun x s => x - s) (fun x a => x / a * a) (fbSize : ℤ) bootSize fwSize

/-- The regions are one above the other and aligned, each with room for its content. -/
structure GspFwWprMeta.Laid (m : GspFwWprMeta) : Prop where
  nonWprHeap : 0x800000 ≤ m.nonWprHeapSize ∧ m.nonWprHeapOffset + m.nonWprHeapSize ≤ m.gspFwWprStart
  wprMeta : m.gspFwWprStart + 0x100000 ≤ m.gspFwHeapOffset
  wprHeap : 0x4000000 ≤ m.gspFwHeapSize ∧ m.gspFwHeapOffset + m.gspFwHeapSize ≤ m.gspFwOffset
  firmware : m.gspFwOffset + m.sizeOfRadix3Elf ≤ m.bootBinOffset
  bootBin : m.bootBinOffset + m.sizeOfBootloader ≤ m.frtsOffset
  frts : 0x100000 ≤ m.frtsSize ∧ m.frtsOffset + m.frtsSize ≤ m.gspFwWprEnd ∧
    m.gspFwWprEnd ≤ m.vgaWorkspaceOffset
  vgaWorkspace : 0x20000 ≤ m.vgaWorkspaceSize ∧ m.vgaWorkspaceOffset + m.vgaWorkspaceSize ≤ m.fbSize
  aligned : 0x100000 ∣ m.nonWprHeapOffset ∧ 0x100000 ∣ m.gspFwWprStart ∧ 0x100000 ∣ m.gspFwHeapOffset ∧
    0x10000 ∣ m.gspFwOffset ∧ 0x1000 ∣ m.bootBinOffset ∧ 0x20000 ∣ m.frtsOffset ∧ 0x20000 ∣ m.gspFwWprEnd

/-- The 64-bit number `x` stands for the integer `X`. -/
def StandsFor (x : ℕ) (X : ℤ) : Prop := (x : ℤ) = X % 2 ^ 64

section

variable {x : ℕ} {X : ℤ} (h : StandsFor x X)
include h

theorem StandsFor.sub {s : ℕ} (hs : s ≤ 2 ^ 62) : StandsFor (sub64 x s) (X - s) := by
  unfold StandsFor sub64 at *
  omega

/-- The alignments divide `2 ^ 64`. -/
theorem StandsFor.alignDown {a : ℕ} (ha : a = 0x1000 ∨ a = 0x10000 ∨ a = 0x20000 ∨ a = 0x100000) :
    StandsFor (gspAlignDown x a) (X / a * a) := by
  unfold StandsFor gspAlignDown at *
  rcases ha with rfl | rfl | rfl | rfl <;> omega

theorem StandsFor.diff {y : ℕ} {Y : ℤ} (hy : StandsFor y Y) (hle : Y ≤ X) (hlt : X < Y + 2 ^ 64) :
    (sub64 x y : ℤ) = X - Y := by
  unfold StandsFor sub64 at *
  omega

end

/-- For sizes up to `2 ^ 62`: what `nv_wpr_populate_meta` accepts is the exact layout, with no negative
offset, and its regions are apart, aligned and inside the framebuffer. Where the lowest offset is negative
it returns -1. -/
theorem nvWprPopulateMeta_layout (dev : ℕ) (gsp : NvGspContext) {fbSize : ℕ} (hfb : fbSize ≤ 2 ^ 62)
    (hboot : gsp.bootFwSize ≤ 2 ^ 62) (hfw : gsp.radix3FwSize ≤ 2 ^ 62) :
    (∀ m, nvWprPopulateMeta dev (some gsp) fbSize = some m →
      0 ≤ (exactLayout fbSize gsp.bootFwSize gsp.radix3FwSize).nonWprHeapOffset ∧
      m.toWprLayout.map Int.ofNat = exactLayout fbSize gsp.bootFwSize gsp.radix3FwSize ∧
      m.sizeOfBootloader = gsp.bootFwSize ∧ m.sizeOfRadix3Elf = gsp.radix3FwSize ∧ m.fbSize = fbSize ∧
      m.Laid) ∧
    ((exactLayout fbSize gsp.bootFwSize gsp.radix3FwSize).nonWprHeapOffset < 0 →
      nvWprPopulateMeta dev (some gsp) fbSize = none) := by
  have h0 : StandsFor fbSize fbSize := by
    unfold StandsFor
    omega
  have hvga := h0.sub (s := 0x20000) (by decide)
  have hend := hvga.alignDown (a := 0x20000) (by decide)
  have hfrts := hend.sub (s := 0x100000) (by decide)
  have hbin := (hfrts.sub hboot).alignDown (a := 0x1000) (by decide)
  have hfirm := (hbin.sub hfw).alignDown (a := 0x10000) (by decide)
  have hheap := (hfirm.sub (s := 0x4000000) (by decide)).alignDown (a := 0x100000) (by decide)
  have hstart := hheap.sub (s := 0x100000) (by decide)
  have hlow := hstart.sub (s := 0x800000) (by decide)
  have hsize := hfirm.diff hheap (by omega) (by omega)
  rw [exactLayout, nvWprPopulateMeta, bind_some, wprLayout, wprLayout]
  dsimp only
  unfold StandsFor at *
  refine ⟨fun m hm => ?_, fun hlt => ?_⟩
  · simp only [ite_none_left_eq_some] at hm
    obtain ⟨-, -, hdone, hm⟩ := hm
    obtain rfl := some.inj hm
    refine ⟨by omega, ?_, rfl, rfl, rfl, ?_⟩
    · simp only [WprLayout.map, WprLayout.mk.injEq, Int.ofNat_eq_natCast]
      omega
    · constructor <;> dsimp only <;> omega
  · split
    · rfl
    split
    · rfl
    exact if_pos (.inl (by omega))

/-- Firmware of 32 MiB in a framebuffer of 8 GiB. -/
def sampleGsp : NvGspContext := ⟨0x1000, 0x2000, 0x2000000, 0x3000, 0x5000, 0x4000, 4096, 0, 0x1000, 0x2000⟩

theorem nvWprPopulateMeta_layout_sample :
    (nvWprPopulateMeta 1 (some sampleGsp) 0x200000000).map (·.nonWprHeapOffset) = some 0x1F9500000 ∧
    ∀ m, nvWprPopulateMeta 1 (some sampleGsp) 0x200000000 = some m → m.Laid :=
  ⟨by decide +kernel, fun m hm => ((nvWprPopulateMeta_layout 1 sampleGsp (by decide) (by decide)
    (by decide)).1 m hm).2.2.2.2.2⟩

end NovaOS.Drivers

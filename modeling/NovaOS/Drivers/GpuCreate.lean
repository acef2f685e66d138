import NovaOS.Drivers.GpuMap

/-!
# What the creation of a GPU resource takes and gives back

Reference: `drivers/virtiogpu/resources.c`.

The size of a resource is a product of factors of the request, rounded up to frames. The frames are
taken before the device is asked, so a refusal after that has to give them back and to undo the
commands sent so far.
-/

namespace NovaOS.Drivers

open NovaOS.Lib NovaOS.Mem List Option

namespace NagResourceCreateArgs

/-- The bytes that a request describes. -/
def exactSize (a : NagResourceCreateArgs) : ℕ :=
  match a.type with
  | .twoD =>
    a.width.toNat * a.height.toNat * (if a.depth = 0#32 then 1#32 else a.depth).toNat *
      (translatePixelFormat a.format).2
  | _ => a.width.toNat

theorem layout_byteSize {a : NagResourceCreateArgs} {l : Layout} (h : a.layout = some l) :
    l.byteSize = wrap64 a.exactSize := by
  unfold layout at h
  unfold exactSize
  split at h
  · cases h
  cases ht : a.type with
  | buffer =>
    rw [ht] at h
    obtain rfl := some.inj h
    exact (wrap64_of_lt (by have := a.width.isLt; dsimp only; omega)).symm
  | twoD =>
    rw [ht] at h
    dsimp only at h
    split at h
    · cases h
    · obtain rfl := some.inj h
      simp only [wrap64, Nat.mod_mul_mod]
  | other =>
    rw [ht] at h
    cases h

end NagResourceCreateArgs

/-- The number of the resource that a command creates. -/
def GpuCmd.created : GpuCmd → Option (BitVec 32)
  | resourceCreate3d _ resourceId _ _ _ _ _ _ => some resourceId
  | _ => none

namespace GpuSystem

/-- If the device accepts, the commands begin with the creation and the backing; if not, the creation
was refused, or the last of them drops the resource. -/
theorem asked_sent (s : GpuSystem) (args : NagResourceCreateArgs) (l : Layout) (m : Vmm)
    (phys n : ℕ) :
    let r := s.asked args l m phys n
    let id := s.takeResourceId.1
    (r.1 = true → ∃ after create, r.2.gpu.commands = after ++
      .resourceAttachBacking id phys (BitVec.ofNat 32 (n * pageSize)) :: create :: s.gpu.commands) ∧
    (r.1 = false → ∃ sent, r.2.gpu.commands = sent ++ s.gpu.commands ∧
      (s.gpu.answers.head? = some false ∨ sent.head? = some (.resourceUnref id)) ∧
      ∀ cmd ∈ sent, ∀ i, cmd.created = some i → i = id) := by
  unfold asked announce
  dsimp only [sendControlCmd]
  split_ifs with hcreate
  · exact ⟨(nomatch ·), fun _ =>
      ⟨[_], rfl, .inl (by simpa [takeResourceId] using hcreate), by simp [GpuCmd.created]⟩⟩
  · exact ⟨(nomatch ·), fun _ =>
      ⟨[_, _, _], rfl, .inr rfl, by simp [GpuCmd.created]⟩⟩
  · exact ⟨fun _ => ⟨[], _, rfl⟩, (nomatch ·)⟩
  · exact ⟨(nomatch ·), fun _ =>
      ⟨[_, _, _, _, _], rfl, .inr rfl, by simp [GpuCmd.created]⟩⟩
  · exact ⟨fun _ => ⟨[_], _, rfl⟩, (nomatch ·)⟩

/-! ## Sizes -/

/-- The new resource has the size that the request describes, the frames cover it, and the device is
told of all of them. -/
def Sized (s s' : GpuSystem) (args : NagResourceCreateArgs) : Prop :=
  ∃ res : VirtioGpuResource, s'.gpu.resources = res :: s.gpu.resources ∧
    res.byteSize = args.exactSize ∧
    (pmmAllocFrames s.vmm res.pageCount).1 = res.physBase ∧
    args.exactSize ≤ res.pageCount * pageSize ∧
    ∃ after create length, s'.gpu.commands = after ++
      .resourceAttachBacking res.resourceId res.physBase length :: create :: s.gpu.commands ∧
      length.toNat = res.pageCount * pageSize

theorem listResource_record (s : GpuSystem) (curr : ℕ) (args : NagResourceCreateArgs) (l : Layout)
    (resId : BitVec 32) (phys n : ℕ) :
    let r := s.listResource curr args l resId phys n
    r.1.isSome ∧ r.2.gpu.commands = s.gpu.commands ∧
      ∃ res : VirtioGpuResource, r.2.gpu.resources = res :: s.gpu.resources ∧
        res.resourceId = resId ∧ res.physBase = phys ∧ res.pageCount = n ∧
        res.byteSize = l.byteSize := by
  unfold listResource
  split <;> exact ⟨rfl, rfl, _, rfl, rfl, rfl, rfl, rfl⟩

theorem sized_iff {size n : ℕ} (hn : n = pagesOf (wrap64 size)) :
    wrap64 size = size ∧ size ≤ n * pageSize ∧
      (BitVec.ofNat 32 (n * pageSize)).toNat = n * pageSize ↔ size + (pageSize - 1) < 2 ^ 32 := by
  subst hn
  rw [BitVec.toNat_ofNat]
  unfold pagesOf wrap64 pageSize
  omega

/-- An accepted request is carried out as described exactly if its size, rounded up to frames, is below
four gigabytes. -/
theorem resourceCreate_sized {s : GpuSystem} {curr : ℕ} {args : NagResourceCreateArgs}
    (h : (s.virtioGpuResourceCreate curr args).1 ≠ none) :
    s.Sized (s.virtioGpuResourceCreate curr args).2 args ↔
      args.exactSize + (pageSize - 1) < 2 ^ 32 := by
  cases hl : args.layout with
  | none => exact absurd (congrArg Prod.fst (create_of_none curr hl)) h
  | some l =>
    obtain ⟨n, hn⟩ : ∃ n, n = pagesOf l.byteSize := ⟨_, rfl⟩
    obtain ⟨⟨phys, m⟩, halloc⟩ : ∃ r, pmmAllocFrames s.vmm n = r := ⟨_, rfl⟩
    have hsize := NagResourceCreateArgs.layout_byteSize hl
    obtain ⟨hsent, -⟩ := asked_sent s args l m phys n
    have hold := (s.asked_quiet args l m phys n).resources_eq
    rw [create_eq hl hn halloc curr] at h ⊢
    generalize s.asked args l m phys n = a at h hold hsent
    split_ifs at h ⊢ with hne ha hrec
    · exact absurd rfl h
    · exact absurd rfl h
    · exact absurd rfl h
    obtain ⟨after, create, hcommands⟩ := hsent (by simpa using ha)
    obtain ⟨-, hlist, res, hres, hid, hphys, hcount, hbytes⟩ :=
      listResource_record a.2.kzallocResource.2 curr args l s.takeResourceId.1 phys n
    generalize a.2.kzallocResource.2.listResource curr args l s.takeResourceId.1 phys n = r
      at hlist hres ⊢
    have hlog : r.2.gpu.commands = a.2.gpu.commands := hlist
    have hlisted : r.2.gpu.resources = res :: s.gpu.resources :=
      hres.trans (congrArg (res :: ·) hold)
    rw [← sized_iff (hn.trans (congrArg pagesOf hsize)), Sized, hlog, hcommands, hlisted]
    constructor
    · rintro ⟨res', hres', hexact, -, hcover, after', _, length, hsame, hlength⟩
      obtain rfl := (cons.inj hres').1
      -- both readings of the log have the backing second from the old commands
      have hlen : after.length = after'.length := by
        simpa using congrArg List.length hsame
      obtain ⟨-, htail⟩ := append_inj hsame hlen
      obtain ⟨-, -, rfl⟩ := GpuCmd.resourceAttachBacking.inj (cons.inj htail).1
      rw [hcount] at hcover hlength
      exact ⟨hsize.symm.trans (hbytes.symm.trans hexact), hcover, hlength⟩
    · rintro ⟨hexact, hcover, hlength⟩
      exact ⟨res, rfl, (hbytes.trans hsize).trans hexact, by rw [hcount, halloc, hphys],
        hcount ▸ hcover, after, _, _, by rw [hid, hphys], by rw [hcount, hlength]⟩

theorem resourceCreate_sized_fresh :
    (freshSystem.virtioGpuResourceCreate 0 smallBuffer).1 ≠ none ∧
      freshSystem.Sized (freshSystem.virtioGpuResourceCreate 0 smallBuffer).2 smallBuffer := by
  exact (and_iff_left_of_imp fun h => (resourceCreate_sized h).mpr (by decide)).mpr (by decide +kernel)

/-- A texture whose size is `2 ^ 64 + 4096`. -/
def wrappingTexture : NagResourceCreateArgs :=
  ⟨0, .twoD, 0, .b8g8r8a8Unorm, 14586017, 308761441, 1024⟩

/-- The texture is accepted with one frame. -/
theorem resourceCreate_wraps :
    let r := freshSystem.virtioGpuResourceCreate 0 wrappingTexture
    wrappingTexture.exactSize = 2 ^ 64 + 4096 ∧ r.1.map (·.size) = some 4096 ∧
      r.2.gpu.resources.map (·.pageCount) = [1] ∧ ¬freshSystem.Sized r.2 wrappingTexture := by
  intro r
  have hsize : wrappingTexture.exactSize = 2 ^ 64 + 4096 := by decide
  have hpages : r.2.gpu.resources.map (·.pageCount) = [1] := by decide +kernel
  refine ⟨hsize, by decide +kernel, hpages, ?_⟩
  rintro ⟨res, hres, -, -, hcover, -⟩
  rw [hres, map_cons] at hpages
  rw [hsize, (cons.inj hpages).1] at hcover
  exact absurd hcover (by decide)

/-! ## Failures -/

/-- The machine with no memory for a record. -/
def noRecord : GpuSystem :=
  { freshSystem with gpu := { freshSystem.gpu with kzallocDenials := [true] } }

end GpuSystem

end NovaOS.Drivers

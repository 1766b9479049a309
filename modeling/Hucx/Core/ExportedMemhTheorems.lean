/-
Hucx.Core.ExportedMemhTheorems — an exported memory handle is read back.

Each piece of the buffer has a lemma for the writer and one for the reader. The reader skips
a record by its stored size. An identifier is packed without its zeros at the end; both sides
hold `globalIdMax` bytes (`trimmed_eq_iff`). With more than `maxMds` pairs of a packed and a
local domain the reader writes past the end of its table.
-/
import Hucx.Core.ExportedMemh

namespace Hucx.Core.ExportedMemh

open List BitVec

variable {size n : Nat}

open Rkey (Map maxMds)

/-! ## Identifiers without the zeros at their end -/

theorem trimmedSize_le (id : List Byte) (size : Nat) : trimmedSize id size ≤ size := by
  induction size with
  | zero => simp [trimmedSize]
  | succ size ih =>
    simp only [trimmedSize]
    split
    · omega
    · omega

theorem take_eq_trimmed (id : List Byte) (h : size ≤ id.length) :
    id.take size = id.take (trimmedSize id size)
      ++ List.replicate (size - trimmedSize id size) 0#8 := by
  induction size with
  | zero => simp [trimmedSize]
  | succ size ih =>
    simp only [trimmedSize]
    split
    · rename_i hzero
      have hle := trimmedSize_le id size
      have hsub : size + 1 - trimmedSize id size = size - trimmedSize id size + 1 := by omega
      rw [List.take_add_one, hzero, ih (by omega), hsub, List.replicate_succ', List.append_assoc]
      rfl
    · simp

theorem eq_trimmed (id : Bytes n) :
    id.1 = id.1.take (trimmedSize id.1 n) ++ List.replicate (n - trimmedSize id.1 n) 0#8 := by
  have h := take_eq_trimmed id.1 id.2.symm.le
  rwa [take_of_length_le id.2.le] at h

theorem trimmed_eq_iff (a b : Bytes n) : (trimmedSize a.1 n = trimmedSize b.1 n ∧
      a.1.take (trimmedSize b.1 n) = b.1.take (trimmedSize b.1 n)) ↔ a = b := by
  constructor
  · rintro ⟨hsize, htake⟩
    apply Subtype.ext
    rw [eq_trimmed a, hsize, htake, ← eq_trimmed b]
  · rintro rfl
    exact ⟨rfl, rfl⟩

/-! ## The size of a record -/

def sizePrefix (size : Nat) : List Byte :=
  if size - 1 > 255 then 0#8 :: leBytes 2 (size - 1 - 2) else [BitVec.ofNat 8 (size - 1)]

theorem infoSizePack_eq (h : size ≤ 65535) : infoSizePack size = .ok (sizePrefix size) := by
  simp only [infoSizePack, check_true h, sizePrefix]
  split
  · rfl
  · rfl

theorem infoSizeUnpack_append (hlo : 2 ≤ size) (hhi : size ≤ 65535)
    (p : List Byte) : infoSizeUnpack (sizePrefix size ++ p) = .ok (size, p) := by
  rw [sizePrefix]
  split
  · have hword : leBytes 2 (size - 1 - 2) = leBytes 2 (BitVec.ofNat 16 (size - 1 - 2)).toNat := by
      rw [BitVec.toNat_ofNat, Nat.mod_eq_of_lt (by omega)]
    have hval : (BitVec.ofNat 16 (size - 1 - 2)).toNat = size - 3 := by
      rw [BitVec.toNat_ofNat, Nat.mod_eq_of_lt (by omega)]
      omega
    have hsum : ((size - 3 + 2) % 2 ^ 16 + 1) % 2 ^ 16 = size := by omega
    simp only [infoSizeUnpack, List.cons_append, readByte_cons, ok_bind, if_true]
    rw [hword, readWord_append (by decide : 2 ^ 16 = 256 ^ 2), ok_bind]
    simp only [hval, hsum]
  · have hval : (BitVec.ofNat 8 (size - 1)).toNat = size - 1 := by
      rw [BitVec.toNat_ofNat, Nat.mod_eq_of_lt (by omega)]
    have hne : BitVec.ofNat 8 (size - 1) ≠ 0#8 := by
      intro h0
      rw [← BitVec.toNat_inj, hval, BitVec.toNat_ofNat] at h0
      omega
    have hsum : (size - 1 + 1) % 2 ^ 16 = size := by omega
    simp only [infoSizeUnpack, List.cons_append, List.nil_append, readByte_cons, ok_bind,
      if_neg hne, hval, hsum]

theorem length_sizePrefix (size : Nat) (h : 2 ≤ size) :
    (sizePrefix (size + extendedInfoSize size)).length = 1 + extendedInfoSize size := by
  by_cases hsize : size - 1 > 255
  · have hext : extendedInfoSize size = 2 := if_pos hsize
    rw [hext, sizePrefix, if_pos (by omega)]
    simp
  · have hext : extendedInfoSize size = 0 := if_neg hsize
    rw [hext, sizePrefix, if_neg (by omega)]
    simp

/-! ## The record of a memory domain -/

section

variable {H : Type} (exporter : Context H) {i : Nat}

def idSize (attr : MdAttr) : Nat := trimmedSize attr.globalId.1 globalIdMax

def recordSize (i : Nat) : Nat :=
  tlMkeyCommonPackedSize ((exporter.attr i).exportedMkeyPackedSize + 1 + idSize (exporter.attr i))

structure Packable (i : Nat) : Prop where
  keySize_pos : 1 ≤ (exporter.attr i).exportedMkeyPackedSize
  keySize_le : (exporter.attr i).exportedMkeyPackedSize ≤ 255
  idSize_pos : 1 ≤ idSize (exporter.attr i)
  idSize_lt : idSize (exporter.attr i) < 255

variable (key : (i : Nat) → Bytes (exporter.attr i).exportedMkeyPackedSize)

def recordBytes (i : Nat) : List Byte :=
  sizePrefix (recordSize exporter i)
    ++ BitVec.ofNat 8 (exporter.attr i).exportedMkeyPackedSize :: ((key i).1
    ++ BitVec.ofNat 8 (idSize (exporter.attr i))
      :: (exporter.attr i).globalId.1.take (idSize (exporter.attr i)))

variable {exporter key}

theorem globalIdPackedSize_eq {attr : MdAttr} (h : idSize attr < 255) :
    globalIdPackedSize attr = .ok (idSize attr) := by
  simp only [globalIdPackedSize, idSize] at h ⊢
  rw [check_true h, ok_bind]

theorem exportedTlMkeyPackedSize_eq (h : Packable exporter i) :
    exportedTlMkeyPackedSize exporter i = .ok (recordSize exporter i) := by
  rw [exportedTlMkeyPackedSize, globalIdPackedSize_eq h.idSize_lt, ok_bind, recordSize]

theorem length_take_globalId (attr : MdAttr) :
    (attr.globalId.1.take (idSize attr)).length = idSize attr := by
  have hle : idSize attr ≤ globalIdMax := trimmedSize_le _ _
  simp [attr.globalId.2, hle]

theorem recordSize_bounds (h : Packable exporter i) :
    2 ≤ recordSize exporter i ∧ recordSize exporter i ≤ 65535 := by
  have h1 := h.keySize_le
  have h2 := h.idSize_lt
  simp only [recordSize, tlMkeyCommonPackedSize, extendedInfoSize]
  split <;> omega

variable (exporter key) in
theorem length_recordBytes (i : Nat) :
    (recordBytes exporter key i).length = recordSize exporter i := by
  have hlen := length_sizePrefix ((exporter.attr i).exportedMkeyPackedSize + 1
    + idSize (exporter.attr i) + 1 + 1) (by omega)
  simp only [recordBytes, recordSize, tlMkeyCommonPackedSize, length_append, length_cons, (key i).2,
    length_take_globalId]
  omega

theorem packMkey_eq {memh : Memh H} (h : Packable exporter i)
    (hkey : exporter.mkeyPack i (memh.uct i) = .ok (key i)) :
    packMkey exporter memh i = .ok (recordBytes exporter key i) := by
  have hsize : (exporter.attr i).exportedMkeyPackedSize ≤ 255
      ∧ (exporter.attr i).exportedMkeyPackedSize ≠ 0 :=
    ⟨h.keySize_le, Nat.ne_of_gt h.keySize_pos⟩
  simp only [packMkey, globalIdPackedSize_eq h.idSize_lt, exportedTlMkeyPackedSize_eq h,
    infoSizePack_eq (recordSize_bounds h).2, check_true hsize, ok_bind, hkey, recordBytes]
  simp

end

/-! ## The local memory domains of an identifier -/

section

variable {H : Type} (importer : Context H)

def localMds (id : Bytes globalIdMax) : List Nat :=
  (List.range importer.numMds).filter fun j => (importer.attr j).globalId = id

variable {importer}

theorem findGlobalId_eq {attr : MdAttr} {mds : List Nat}
    (hid : ∀ j ∈ mds, idSize (importer.attr j) < 255) (mdMap : Map) :
    findGlobalId importer (attr.globalId.1.take (idSize attr)) (idSize attr) mds mdMap
      = .ok ((mds.filter fun j => (importer.attr j).globalId = attr.globalId).foldl
          (fun m j => m ||| BitVec.twoPow 64 j) mdMap) := by
  induction mds generalizing mdMap with
  | nil => simp [findGlobalId]
  | cons j mds ih =>
    have hrest : ∀ j ∈ mds, idSize (importer.attr j) < 255 :=
      fun j hj => hid j (mem_cons_of_mem _ hj)
    have hiff : (idSize (importer.attr j) = idSize attr ∧
        (importer.attr j).globalId.1.take (idSize attr) = attr.globalId.1.take (idSize attr)) ↔
          (importer.attr j).globalId = attr.globalId :=
      trimmed_eq_iff _ _
    simp only [findGlobalId, globalIdPackedSize_eq (hid j (by simp)), ok_bind, hiff,
      filter_cons, ih hrest]
    split
    · simp_all
    · simp_all

theorem findGlobalIdMdMap_eq (attr : MdAttr)
    (hid : ∀ j, j < importer.numMds → idSize (importer.attr j) < 255) :
    ∃ mdMap, findGlobalIdMdMap importer (attr.globalId.1.take (idSize attr)) (idSize attr)
        = .ok mdMap ∧ bits mdMap = localMds importer attr.globalId := by
  refine ⟨_, findGlobalId_eq (fun j hj => hid j (mem_range.mp hj)) 0#64, ?_⟩
  apply bits_ofBits (pairwise_lt_range.filter _)
  intro j hj
  have hlt : j < importer.numMds := mem_range.mp (mem_filter.mp hj).1
  exact hlt.trans_le importer.numMds_le

end

/-! ## The table of keys -/

section

variable {H H' : Type} {exporter : Context H} {importer : Context H'}
  {key : (i : Nat) → Bytes (exporter.attr i).exportedMkeyPackedSize}

variable (key) in
theorem tlMkeyDataUnpack_append {i : Nat} (h : Packable exporter i)
    (hid : ∀ j, j < importer.numMds → idSize (importer.attr j) < 255) (p : List Byte) :
    ∃ mdMap, tlMkeyDataUnpack importer (recordBytes exporter key i ++ p)
        = .ok ((key i).1, mdMap, p) ∧
      bits mdMap = localMds importer (exporter.attr i).globalId := by
  obtain ⟨mdMap, hfind, hbits⟩ := findGlobalIdMdMap_eq (exporter.attr i) hid
  obtain ⟨hlo, hhi⟩ := recordSize_bounds h
  have hpos : recordSize exporter i ≠ 0 := by omega
  have hkey : (BitVec.ofNat 8 (exporter.attr i).exportedMkeyPackedSize).toNat
      = (exporter.attr i).exportedMkeyPackedSize := by
    rw [toNat_ofNat, Nat.mod_eq_of_lt (Nat.lt_succ_of_le h.keySize_le)]
  have hsize : (BitVec.ofNat 8 (idSize (exporter.attr i))).toNat
      = idSize (exporter.attr i) := by
    rw [toNat_ofNat, Nat.mod_eq_of_lt (h.idSize_lt.trans (by decide))]
  have hkey0 : BitVec.ofNat 8 (exporter.attr i).exportedMkeyPackedSize ≠ 0#8 := by
    intro h0
    rw [← toNat_inj, hkey] at h0
    exact Nat.ne_of_gt h.keySize_pos h0
  have hsize0 : BitVec.ofNat 8 (idSize (exporter.attr i)) ≠ 0#8 := by
    intro h0
    rw [← toNat_inj, hsize] at h0
    exact Nat.ne_of_gt h.idSize_pos h0
  have hlen := length_recordBytes exporter key i
  have hread : (recordBytes exporter key i ++ p).length - p.length ≤ recordSize exporter i := by
    rw [length_append, hlen]
    omega
  refine ⟨mdMap, ?_, hbits⟩
  have hdrop : (recordBytes exporter key i ++ p).drop (recordSize exporter i) = p := drop_left' hlen
  have hinfo : infoSizeUnpack (recordBytes exporter key i ++ p) = .ok (recordSize exporter i,
      BitVec.ofNat 8 (exporter.attr i).exportedMkeyPackedSize :: ((key i).1
        ++ (BitVec.ofNat 8 (idSize (exporter.attr i))
          :: ((exporter.attr i).globalId.1.take (idSize (exporter.attr i)) ++ p)))) := by
    rw [← infoSizeUnpack_append hlo hhi]
    simp [recordBytes]
  simp only [tlMkeyDataUnpack, hinfo, ok_bind, check_true hpos, readByte_cons,
    check_true hkey0, hkey, readBytes_append (key i).2, check_true hsize0, hsize,
    readBytes_append (length_take_globalId _), hfind, check_true hread, hdrop]

theorem addTlMkeys_eq (buf : List Byte) (mds : List Nat) {tlMkeys : List TlMkey}
    (h : tlMkeys.length ≤ maxMds) :
    addTlMkeys buf mds tlMkeys = if tlMkeys.length + mds.length ≤ maxMds then
        .ok (tlMkeys ++ mds.map fun j => ⟨j, buf⟩) else .error (.status .overrun) := by
  induction mds generalizing tlMkeys with
  | nil => simp [addTlMkeys, h]
  | cons j mds ih =>
    simp only [addTlMkeys]
    by_cases hroom : tlMkeys.length < maxMds
    · have hlen : (tlMkeys ++ [(⟨j, buf⟩ : TlMkey)]).length + mds.length
          = tlMkeys.length + (j :: mds).length := by
        simp
        omega
      rw [if_pos hroom, ih (by simp; omega), hlen]
      simp
    · rw [if_neg hroom, if_neg (by simp; omega)]

variable (importer key) in
def entries (mds : List Nat) : List TlMkey :=
  mds.flatMap fun i => (localMds importer (exporter.attr i).globalId).map fun j => ⟨j, (key i).1⟩

variable (key) in
theorem unpackTlMkeys_append {mds : List Nat} (h : ∀ i ∈ mds, Packable exporter i)
    (hid : ∀ j, j < importer.numMds → idSize (importer.attr j) < 255) (tlMkeys : List TlMkey)
    (hle : tlMkeys.length ≤ maxMds) :
    unpackTlMkeys importer mds tlMkeys (mds.flatMap (recordBytes exporter key))
      = if tlMkeys.length + (entries importer key mds).length ≤ maxMds then
          .ok (tlMkeys ++ entries importer key mds) else .error (.status .overrun) := by
  induction mds generalizing tlMkeys with
  | nil => simp [unpackTlMkeys, entries, hle]
  | cons i mds ih =>
    obtain ⟨_, hdata, hbits⟩ := tlMkeyDataUnpack_append key (h i (by simp)) hid
      (mds.flatMap (recordBytes exporter key))
    have hrest : ∀ i ∈ mds, Packable exporter i := fun i hi => h i (mem_cons_of_mem _ hi)
    have hcons : entries importer key (i :: mds)
        = (localMds importer (exporter.attr i).globalId).map (fun j => ⟨j, (key i).1⟩)
          ++ entries importer key mds := rfl
    rw [flatMap_cons, unpackTlMkeys, hdata]
    simp only [ok_bind, hbits]
    rw [addTlMkeys_eq _ _ hle, hcons, length_append, length_map]
    by_cases hroom :
        tlMkeys.length + (localMds importer (exporter.attr i).globalId).length ≤ maxMds
    · rw [if_pos hroom, ok_bind, ih hrest _ (by simpa using hroom)]
      simp [Nat.add_assoc]
    · rw [if_neg hroom, if_neg (by omega)]
      rfl

end

/-! ## The whole buffer -/

section

variable {H H' : Type} {exporter : Context H} {importer : Context H'} {memh : Memh H}
  {key : (i : Nat) → Bytes (exporter.attr i).exportedMkeyPackedSize} {mds : List Nat}

variable (exporter memh key) in
/-- A memory handle whose domains are known to the context, with sizes that can be packed
and keys that are packed. -/
structure Exports : Prop where
  known : ∀ i ∈ bits memh.mdMap, i < exporter.numMds
  packable : ∀ i ∈ bits (exportMdMap exporter memh), Packable exporter i
  packed : ∀ i ∈ bits (exportMdMap exporter memh),
    exporter.mkeyPack i (memh.uct i) = .ok (key i)

variable (exporter memh) in
def infoBytes : List Byte :=
  43#8 :: (leBytes 2 flagExported.toNat ++ (leBytes 8 (exportMdMap exporter memh).toNat
    ++ (memh.memType :: (leBytes 8 memh.address.toNat ++ (leBytes 8 memh.length.toNat
    ++ (leBytes 8 exporter.uuid.toNat ++ leBytes 8 memh.regId.toNat))))))

variable (exporter memh) in
theorem length_infoBytes : (infoBytes exporter memh).length = exportedInfoPackedSize := by
  simp [infoBytes, exportedInfoPackedSize, commonPackedSize, extendedInfoSize]

theorem packMkeys_eq (h : ∀ i ∈ mds, Packable exporter i)
    (hkey : ∀ i ∈ mds, exporter.mkeyPack i (memh.uct i) = .ok (key i)) (p : List Byte) :
    packMkeys exporter memh mds p = .ok (p ++ mds.flatMap (recordBytes exporter key)) := by
  induction mds generalizing p with
  | nil => simp [packMkeys]
  | cons i mds ih =>
    rw [packMkeys, packMkey_eq (h i (by simp)) (hkey i (by simp)), ok_bind,
      ih (fun j hj => h j (mem_cons_of_mem _ hj))
        (fun j hj => hkey j (mem_cons_of_mem _ hj))]
    simp

theorem exportedPack_eq (h : Exports exporter memh key) :
    exportedPack exporter memh = .ok (infoBytes exporter memh
      ++ (bits (exportMdMap exporter memh)).flatMap (recordBytes exporter key)) := by
  have hprefix : sizePrefix exportedInfoPackedSize = [43#8] := by decide
  have hcommon : commonPack exporter memh flagExported exportedInfoPackedSize
      = .ok ([43#8] ++ leBytes 2 flagExported.toNat
        ++ leBytes 8 (exportMdMap exporter memh).toNat ++ [memh.memType]) := by
    simp only [commonPack, check_true h.known, ok_bind,
      infoSizePack_eq (by decide : exportedInfoPackedSize ≤ 65535), hprefix]
  have hinfo : [43#8] ++ leBytes 2 flagExported.toNat ++ leBytes 8 (exportMdMap exporter memh).toNat
      ++ [memh.memType] ++ leBytes 8 memh.address.toNat ++ leBytes 8 memh.length.toNat
      ++ leBytes 8 exporter.uuid.toNat ++ leBytes 8 memh.regId.toNat = infoBytes exporter memh := by
    simp [infoBytes]
  simp only [exportedPack, hcommon, ok_bind, hinfo,
    check_true (length_infoBytes exporter memh).symm]
  exact packMkeys_eq h.packable h.packed _

variable (key) in
theorem addPackedSizes_eq (h : ∀ i ∈ mds, Packable exporter i) (size : Nat) :
    addPackedSizes exporter mds size
      = .ok (size + (mds.flatMap (recordBytes exporter key)).length) := by
  induction mds generalizing size with
  | nil => simp [addPackedSizes]
  | cons i mds ih =>
    rw [addPackedSizes, exportedTlMkeyPackedSize_eq (h i (by simp)), ok_bind,
      ih (fun j hj => h j (mem_cons_of_mem _ hj)), flatMap_cons, length_append,
      length_recordBytes, Nat.add_assoc]

variable (exporter memh importer key) in
def expected : Unpacked where
  flags := flagExported
  remoteMdMap := exportMdMap exporter memh
  memType := memh.memType
  address := memh.address
  length := memh.length
  remoteUuid := exporter.uuid
  regId := memh.regId
  tlMkeys := entries importer key (bits (exportMdMap exporter memh))

variable (exporter memh importer) in
def pairs : List (Nat × Nat) :=
  (bits (exportMdMap exporter memh)).flatMap fun i =>
    (localMds importer (exporter.attr i).globalId).map fun j => (i, j)

theorem length_entries : (entries importer key (bits (exportMdMap exporter memh))).length
      = (pairs exporter importer memh).length := by
  simp [entries, pairs, length_flatMap]

theorem exportedUnpack_eq (h : Exports exporter memh key)
    (hid : ∀ j, j < importer.numMds → idSize (importer.attr j) < 255) :
    exportedUnpack importer (infoBytes exporter memh
        ++ (bits (exportMdMap exporter memh)).flatMap (recordBytes exporter key))
      = if (pairs exporter importer memh).length ≤ maxMds then
          .ok (if (expected exporter importer memh key).tlMkeys = [] then .unreachable else .ok,
            expected exporter importer memh key) else .error (.status .overrun) := by
  obtain ⟨q, hq⟩ : ∃ q, q = (bits (exportMdMap exporter memh)).flatMap
    (recordBytes exporter key) := ⟨_, rfl⟩
  have hinfo : infoSizeUnpack (infoBytes exporter memh ++ q) = .ok (exportedInfoPackedSize,
      leBytes 2 flagExported.toNat ++ (leBytes 8 (exportMdMap exporter memh).toNat
      ++ (memh.memType :: (leBytes 8 memh.address.toNat ++ (leBytes 8 memh.length.toNat
      ++ (leBytes 8 exporter.uuid.toNat ++ (leBytes 8 memh.regId.toNat ++ q))))))) := by
    rw [← infoSizeUnpack_append (by decide) (by decide)]
    rfl
  have hdrop : (infoBytes exporter memh ++ q).drop exportedInfoPackedSize = q :=
    drop_left' (length_infoBytes exporter memh)
  have hread : (infoBytes exporter memh ++ q).length - q.length ≤ exportedInfoPackedSize := by
    rw [length_append, length_infoBytes]
    omega
  have hpos : exportedInfoPackedSize ≠ 0 := by decide
  have hflag : ¬ flagExported &&& flagExported = 0 := by decide
  have hkeys := unpackTlMkeys_append key h.packable hid [] (by decide)
  rw [length_nil, Nat.zero_add, length_entries, ← hq] at hkeys
  rw [← hq]
  simp only [exportedUnpack, hinfo, ok_bind, check_true hpos, if_neg hflag, readByte_cons,
    readWord_append (by decide : 2 ^ 16 = 256 ^ 2), readWord_append (by decide : 2 ^ 64 = 256 ^ 8),
    check_true memh.length_ne_zero, check_true hread, hdrop, hkeys]
  split
  · rfl
  · rfl

/-- An exported memory handle is read back by another context, with the local domains of
each packed one, exactly when the pairs of them fit in the table. -/
theorem exported_memh_round_trip (exporter : Context H) (importer : Context H') (memh : Memh H)
    (key : (i : Nat) → Bytes (exporter.attr i).exportedMkeyPackedSize)
    (h : Exports exporter memh key)
    (hid : ∀ j, j < importer.numMds → idSize (importer.attr j) < 255) : ∃ buffer,
      exportedPack exporter memh = .ok buffer ∧
      exportedPackedSize exporter (exportMdMap exporter memh) = .ok buffer.length ∧
      ((∃ status, exportedUnpack importer buffer
          = .ok (status, expected exporter importer memh key)) ↔
        (pairs exporter importer memh).length ≤ maxMds) := by
  refine ⟨_, exportedPack_eq h, ?_, ?_⟩
  · rw [exportedPackedSize, addPackedSizes_eq key h.packable, length_append,
      length_infoBytes]
  rw [exportedUnpack_eq h hid]
  by_cases hroom : (pairs exporter importer memh).length ≤ maxMds
  · simp [hroom]
  · simp [hroom]

def shortId : Bytes globalIdMax :=
  ⟨1#8 :: List.replicate 255 0#8, by rw [List.length_cons, List.length_replicate]; rfl⟩

def oneDevice (numMds : Nat) (h : numMds ≤ maxMds) (mdMap : Map) : Context Unit where
  numMds := numMds
  numMds_le := h
  exportMdMap := mdMap
  uuid := 5#64
  attr := fun _ => ⟨4, shortId⟩
  mkeyPack := fun _ _ => .ok ⟨List.replicate 4 9#8, List.length_replicate⟩

def memory (mdMap : Map) : Memh Unit where
  address := 4096#64
  length := 64#64
  length_ne_zero := by decide
  mdMap := mdMap
  memType := 0#8
  regId := 7#64
  uct := fun _ => ()

theorem idSize_shortId : idSize ⟨4, shortId⟩ = 1 := by
  decide +kernel

theorem exports_oneDevice {numMds : Nat} {h : numMds ≤ maxMds} {mdMap : Map}
    (hmap : ∀ i ∈ bits mdMap, i < numMds) : Exports (oneDevice numMds h mdMap) (memory mdMap)
      fun _ => ⟨List.replicate 4 9#8, length_replicate⟩ where
  known := hmap
  packable := by
    intro i _
    have hone : idSize ((oneDevice numMds h mdMap).attr i) = 1 := idSize_shortId
    refine ⟨(by decide : 1 ≤ 4), (by decide : 4 ≤ 255), ?_, ?_⟩
    · rw [hone]
    · rw [hone]
      decide
  packed := fun _ _ => rfl

theorem length_pairs_oneDevice {n m : Nat} (hn : n ≤ maxMds) (hm : m ≤ maxMds) (mdMap : Map) :
    (pairs (oneDevice n hn mdMap) (oneDevice m hm 0#64) (memory mdMap)).length
      = (bits mdMap).length * m := by
  have hlocal : ∀ i, localMds (oneDevice m hm 0#64) ((oneDevice n hn mdMap).attr i).globalId
      = List.range m := by
    intro i
    simp [localMds, oneDevice]
  have hmap : exportMdMap (oneDevice n hn mdMap) (memory mdMap) = mdMap := and_self
  simp [pairs, hlocal, hmap, length_flatMap]

/-- Two domains are exported to a context with three on the same device. -/
theorem exported_memh_round_trip_two : let exporter := oneDevice 2 (by decide) 3#64
    let importer := oneDevice 3 (by decide) 0#64
    ∃ buffer,
      exportedPack exporter (memory 3#64) = .ok buffer ∧
      exportedPackedSize exporter (exportMdMap exporter (memory 3#64)) = .ok buffer.length ∧
      ∃ status, exportedUnpack importer buffer = .ok (status, expected exporter importer
        (memory 3#64) fun _ => ⟨List.replicate 4 9#8, List.length_replicate⟩) := by
  intro exporter importer
  obtain ⟨buffer, hpack, hsize, hunpack⟩ := exported_memh_round_trip exporter importer
    (memory 3#64) _ (exports_oneDevice (by decide))
    (fun j _ => by rw [show importer.attr j = ⟨4, shortId⟩ from rfl, idSize_shortId]; decide)
  refine ⟨buffer, hpack, hsize, hunpack.mpr ?_⟩
  rw [length_pairs_oneDevice]
  decide

/-- With nine exported domains and eight local ones on one device, unpacking writes past
the end of its table. -/
theorem exported_memh_overruns :
    ∃ (exporter importer : Context Unit) (memh : Memh Unit) (buffer : List Byte),
      exportedPack exporter memh = .ok buffer ∧
      exportedUnpack importer buffer = .error (.status .overrun) := by
  have h := exports_oneDevice (h := (by decide : 9 ≤ maxMds)) (by decide : ∀ i ∈ bits 511#64, i < 9)
  refine ⟨_, oneDevice 8 (by decide) 0#64, _, _, exportedPack_eq h, ?_⟩
  rw [exportedUnpack_eq h (fun j _ => by
    rw [show (oneDevice 8 _ 0#64).attr j = ⟨4, shortId⟩ from rfl, idSize_shortId]; decide)]
  apply if_neg
  rw [length_pairs_oneDevice]
  decide

end

end Hucx.Core.ExportedMemh

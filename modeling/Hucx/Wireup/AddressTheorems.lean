/-
Hucx.Wireup.AddressTheorems — a packed address is read back as it was packed.

The machine id has no header flag: the packer writes it under
`UCP_ADDRESS_PACK_FLAG_MACHINE_ID`, and all readers expect it behind the uuid. So the
readers agree with one another always (`unpackIds_eq`), and with the packer when the
two flags go together (`header_readers_agree`). `unpack_pack_iff` is the round trip of
the whole address.
-/
import Hucx.Wireup.AddressReading
import Hucx.Wireup.AddressSizeTheorems

namespace Hucx.Wireup

open List

/-! ## The header -/

def headBytes (version : ObjectVersion) (addrFlags : Byte) : List Byte :=
  match version with
  | .v1 => [addrFlags <<< 4]
  | .v2 => [0x01#8, addrFlags]

variable (worker : Worker) (flags : PackFlags)

def idBytes : List Byte :=
  (if flags.workerUuid then leBytes 8 worker.uuid.toNat else [])
  ++ (if flags.machineId then leBytes 8 worker.machineId.toNat else [])

def clientIdBytes : List Byte :=
  if flags.clientId then leBytes 8 worker.clientId.toNat else []

def nameBytes : List Byte :=
  if worker.addressDebugInfo && flags.workerName then
    BitVec.ofNat 8 worker.addressName.val.length :: worker.addressName.val
  else []

theorem packHeader_eq (version : ObjectVersion) :
    packHeader worker flags version = headBytes version (headerFlags worker flags)
      ++ (idBytes worker flags ++ (clientIdBytes worker flags ++ nameBytes worker flags)) := by
  have hflags (rest : List Byte) : packHeaderFlags (versionBytes version ++ rest) version
      (headerFlags worker flags) = headBytes version (headerFlags worker flags) ++ rest := by
    cases version <;> simp [packHeaderFlags, versionBytes, headBytes]
  rw [← hflags]
  simp only [packHeader, idBytes, clientIdBytes, nameBytes]
  cases flags.workerUuid <;> cases flags.machineId <;> cases flags.clientId <;>
    cases (worker.addressDebugInfo && flags.workerName) <;> simp

theorem headerFlags_bits : headerFlags worker flags &&& 0xf0#8 = 0#8 ∧
    (headerFlags worker flags &&& headerWorkerUuid ≠ 0#8 ↔ flags.workerUuid) ∧
    (headerFlags worker flags &&& headerClientId ≠ 0#8 ↔ flags.clientId) ∧
    (headerFlags worker flags &&& headerDebugInfo ≠ 0#8 ↔ worker.addressDebugInfo) := by
  rw [headerFlags]
  cases flags.amOnly <;> cases flags.workerUuid <;> cases flags.clientId <;>
    cases worker.addressDebugInfo <;> decide

theorem unpackHeader_headBytes (version : ObjectVersion) {addrFlags : Byte}
    (hflags : addrFlags &&& 0xf0#8 = 0#8) (p : List Byte) :
    unpackHeader (headBytes version addrFlags ++ p) = .ok (version, addrFlags, p) := by
  cases version with
  | v1 =>
    have hshift : ∀ x : Byte, x &&& 0xf0#8 = 0#8 →
        (x <<< 4) &&& 0x0f#8 = 0#8 ∧ (x <<< 4) >>> 4 = x := by
      decide
    obtain ⟨hversion, hback⟩ := hshift addrFlags hflags
    simp [unpackHeader, headBytes, hversion, hback]
  | v2 => simp [unpackHeader, headBytes]

section

variable {worker : Worker} {ep : Option (Ep worker)} {lanes2remote : Option (Nat → Byte)}
  {flags : PackFlags} {version : ObjectVersion} {buf : List Byte}

theorem writeAddress_header {devices : List PackedDevice}
    (h : writeAddress ep lanes2remote flags version devices = .ok buf) :
    ∃ rest, buf = headBytes version (headerFlags worker flags)
      ++ (idBytes worker flags ++ (clientIdBytes worker flags ++ rest)) := by
  have hheader : ∃ rest, buf = packHeader worker flags version ++ rest := by
    rw [writeAddress] at h
    split at h
    · cases h
      exact ⟨_, rfl⟩
    · exact ⟨_, (packDevices_ok h).1⟩
  obtain ⟨rest, rfl⟩ := hheader
  exact ⟨nameBytes worker flags ++ rest, by simp [packHeader_eq]⟩

theorem unpackHeader_eq (rest : List Byte) :
    unpackHeader (headBytes version (headerFlags worker flags) ++ rest)
      = .ok (version, headerFlags worker flags, rest) :=
  unpackHeader_headBytes version (headerFlags_bits worker flags).1 rest

theorem getUuid_eq (rest : List Byte) :
    getUuid (headBytes version (headerFlags worker flags) ++ (idBytes worker flags ++ rest))
      = .ok (if flags.workerUuid then worker.uuid else 0#64) := by
  rw [getUuid, unpackHeader_eq, ok_bind]
  have huuid := (headerFlags_bits worker flags).2.1
  cases hu : flags.workerUuid with
  | true =>
    rw [if_pos (huuid.mpr hu), idBytes, hu, if_pos rfl, append_assoc,
      readWord_append (by decide), ok_bind]
    rfl
  | false =>
    rw [if_neg (by rw [huuid, hu]; simp)]
    rfl

theorem clientIdPtr_eq (hids : flags.workerUuid = flags.machineId) (rest : List Byte) :
    clientIdPtr (headerFlags worker flags) (idBytes worker flags ++ rest) = rest := by
  have huuid := (headerFlags_bits worker flags).2.1
  rw [clientIdPtr]
  cases hu : flags.workerUuid with
  | true =>
    rw [if_pos (huuid.mpr hu), idBytes, ← hids, hu]
    simp
  | false =>
    rw [if_neg (by rw [huuid, hu]; simp), idBytes, ← hids, hu]
    simp

theorem getClientId_eq (h : flags.clientId = false ∨ flags.workerUuid = flags.machineId)
    (rest : List Byte) : getClientId (headBytes version (headerFlags worker flags)
      ++ (idBytes worker flags ++ (clientIdBytes worker flags ++ rest)))
      = .ok (if flags.clientId then worker.clientId else 0#64) := by
  have hclient := (headerFlags_bits worker flags).2.2.1
  rw [getClientId, unpackHeader_eq, ok_bind]
  cases hc : flags.clientId with
  | false =>
    have hnot : headerFlags worker flags &&& headerClientId = 0#8 := by simpa [hc] using hclient
    rw [if_pos hnot]
    rfl
  | true =>
    have hids : flags.workerUuid = flags.machineId := by simpa [hc] using h
    rw [if_neg (hclient.mpr hc), clientIdPtr_eq hids, clientIdBytes, hc, if_pos rfl,
      readWord_append (by decide), ok_bind]
    rfl

theorem unpackIds_eq {p : List Byte} {ids : BitVec 64 × BitVec 64 × List Byte}
    (hbuf : buf = headBytes version (headerFlags worker flags) ++ p)
    (h : unpackIds buf flags version (headerFlags worker flags) p = .ok ids) :
    getUuid buf = .ok ids.1 ∧ ids.2.2 = clientIdPtr (headerFlags worker flags) p := by
  have huuid := (headerFlags_bits worker flags).2.1
  rw [unpackIds] at h
  by_cases hu : flags.workerUuid
  · rw [if_pos (.inr (huuid.mpr hu)), bind_eq_ok] at h
    obtain ⟨_, hget, h⟩ := h
    rw [bind_eq_ok] at h
    obtain ⟨_, hread, h⟩ := h
    cases h
    refine ⟨hget, ?_⟩
    rw [clientIdPtr, if_pos (huuid.mpr hu)]
    exact readWord_rest hread
  · rw [if_neg (by rw [huuid]; simp [hu])] at h
    cases h
    refine ⟨?_, by rw [clientIdPtr, if_neg (by rwa [huuid])]⟩
    rw [hbuf, getUuid, unpackHeader_eq, ok_bind, if_neg (by rwa [huuid])]

theorem unpackIds_idBytes (hids : flags.workerUuid = flags.machineId) (rest : List Byte) :
    unpackIds (headBytes version (headerFlags worker flags) ++ (idBytes worker flags ++ rest))
      flags version (headerFlags worker flags) (idBytes worker flags ++ rest) =
    .ok (if flags.workerUuid then worker.uuid else 0#64,
      if flags.machineId then worker.machineId else 0#64, rest) := by
  have huuid := (headerFlags_bits worker flags).2.1
  rw [unpackIds, getUuid_eq]
  cases hu : flags.workerUuid with
  | true =>
    have hm : flags.machineId := by rw [← hids, hu]
    have hdrop : (idBytes worker flags ++ rest).drop 8 =
        leBytes 8 worker.machineId.toNat ++ rest := by
      simp [idBytes, hu, hm, drop_left' (length_leBytes 8 worker.uuid.toNat)]
    rw [if_pos (.inr (huuid.mpr hu)), ok_bind, hdrop, readWord_append (by decide), ok_bind, hm]
    rfl
  | false =>
    have hm : flags.machineId = false := by rw [← hids, hu]
    rw [if_neg (by rw [huuid, hu]; simp)]
    simp [idBytes, hu, hm]

/-- The standalone readers of the header agree with the unpacker on every address,
and with the packer: on the uuid always, and on the client id when there is none or
the uuid and the machine id are packed together. -/
theorem header_readers_agree {worker : Worker} (ep : Option (Ep worker))
    (lanes2remote : Option (Nat → Byte)) (flags : PackFlags) (version : ObjectVersion)
    (devices : List PackedDevice) {buf : List Byte}
    (h : writeAddress ep lanes2remote flags version devices = .ok buf) :
    getUuid buf = .ok (if flags.workerUuid then worker.uuid else 0#64) ∧
    (flags.clientId = false ∨ flags.workerUuid = flags.machineId →
      getClientId buf = .ok (if flags.clientId then worker.clientId else 0#64)) ∧
    ∃ addrFlags p, unpackHeader buf = .ok (version, addrFlags, p) ∧
      (∀ ids, unpackIds buf flags version addrFlags p = .ok ids →
        getUuid buf = .ok ids.1 ∧ ids.2.2 = clientIdPtr addrFlags p) ∧
      (flags.workerUuid = flags.machineId →
        ∃ rest, p = idBytes worker flags ++ rest ∧ clientIdPtr addrFlags p = rest ∧
          unpackIds buf flags version addrFlags p =
            .ok (if flags.workerUuid then worker.uuid else 0#64,
              if flags.machineId then worker.machineId else 0#64, rest)) := by
  obtain ⟨rest, rfl⟩ := writeAddress_header h
  refine ⟨getUuid_eq _, fun hc => getClientId_eq hc rest, headerFlags worker flags, _,
    unpackHeader_eq _, ?_, ?_⟩
  · intro ids hids
    exact unpackIds_eq rfl hids
  · intro hids
    exact ⟨_, rfl, clientIdPtr_eq hids _, unpackIds_idBytes hids _⟩

/-- An address with a device and its transport. -/
theorem header_readers_agree_device : ∃ buf,
    pack sampleNetWorker none 1#128 allPackFlags .v1 none = .ok buf ∧
      getUuid buf = .ok sampleNetWorker.uuid ∧ getClientId buf = .ok sampleNetWorker.clientId := by
  have h : writeAddress (none : Option (Ep sampleNetWorker)) none
      { allPackFlags with epAddr := false } .v1
      [deviceOf sampleNetWorker none { allPackFlags with epAddr := false } .v1 [0]] = .ok _ := rfl
  have hagree := header_readers_agree _ _ _ _ _ h
  exact ⟨_, rfl, hagree.1, hagree.2.1 (.inr rfl)⟩

/-- With the uuid and without the machine id, or the other way round, the client id
is read from the wrong place. -/
theorem client_id_misread :
    (∃ buf, pack sampleNetWorker none 1#128 { allPackFlags with machineId := false } .v1 none
        = .ok buf ∧ getClientId buf ≠ .ok sampleNetWorker.clientId) ∧
    (∃ buf, pack sampleNetWorker none 1#128 { allPackFlags with workerUuid := false } .v1 none
        = .ok buf ∧ getClientId buf = .ok sampleNetWorker.machineId) :=
  ⟨⟨_, rfl, by decide⟩, ⟨_, rfl, by decide⟩⟩

end

/-! ## The whole address -/

def packedAddress {worker : Worker} (ep : Option (Ep worker)) (tlBitmap : BitVec maxResources)
    (flags : PackFlags) (version : ObjectVersion) (lanes2remote : Option (Nat → Byte)) :
    UnpackedAddress :=
  { uuid := if flags.workerUuid then worker.uuid else 0#64
    machineId := if flags.machineId then worker.machineId else 0#64
    name := if worker.addressDebugInfo && flags.workerName then worker.addressName.val
      else emptyPeerName
    addressList :=
      packedEntries ep lanes2remote flags version (deviceClasses worker tlBitmap) [] 0 }

def bodyBytes {worker : Worker} (ep : Option (Ep worker)) (lanes2remote : Option (Nat → Byte))
    (flags : PackFlags) (version : ObjectVersion) (tlBitmap : BitVec maxResources) : List Byte :=
  if deviceClasses worker tlBitmap = [] then [BitVec.ofNat 8 nullResource]
  else flagged (classBytes ep lanes2remote flags version) (deviceClasses worker tlBitmap)

section

variable {worker peer : Worker} {ep : Option (Ep worker)} {lanes2remote : Option (Nat → Byte)}
  {flags : PackFlags} {version : ObjectVersion} {tlBitmap : BitVec maxResources} {rscIndex : Nat}

/-- A packed address is its header and its devices, which have passed the packer. -/
theorem pack_ok {buf : List Byte}
    (h : pack worker ep tlBitmap flags version lanes2remote = .ok buf) :
    buf = packHeader worker (effectiveFlags ep flags) version
      ++ bodyBytes ep lanes2remote (effectiveFlags ep flags) version tlBitmap ∧
    ClassesPacked ep lanes2remote (effectiveFlags ep flags) version tlBitmap := by
  simp only [pack, bind_eq_ok, doPack, check_eq_ok] at h
  obtain ⟨_, hgather, _, -, _, hwrite, -, -, h⟩ := h
  cases h
  obtain ⟨rfl, -⟩ := gatherDevices_ok hgather
  rw [writeAddress] at hwrite
  rw [bodyBytes]
  split at hwrite
  · rename_i hnil
    have hnil : deviceClasses worker tlBitmap = [] := by simpa using hnil
    cases hwrite
    simp [ClassesPacked, hnil]
  rename_i hne
  have hne : deviceClasses worker tlBitmap ≠ [] := by simpa using hne
  obtain ⟨rfl, hpacked⟩ := packDevices_ok hwrite
  rw [if_neg hne, flagged_map]
  exact ⟨rfl, fun tls hmem => hpacked _ (mem_map_of_mem hmem)⟩

theorem unpack_effectiveFlags (ep : Option (Ep worker)) (buf : List Byte) :
    unpack peer buf (effectiveFlags ep flags) = unpack peer buf flags := by
  cases ep <;> rfl

theorem packedEntries_effectiveFlags (classes : List (List Nat)) (devices : List (Nat × Byte))
    (devIndex : Nat) :
    packedEntries ep lanes2remote (effectiveFlags ep flags) version classes devices devIndex =
      packedEntries ep lanes2remote flags version classes devices devIndex := by
  cases ep with
  | some ep => rfl
  | none =>
    induction classes generalizing devices devIndex with
    | nil => rfl
    | cons _ classes ih =>
      rw [packedEntries, packedEntries, ih]
      rfl

theorem packedAddress_effectiveFlags :
    packedAddress ep tlBitmap (effectiveFlags ep flags) version lanes2remote =
      packedAddress ep tlBitmap flags version lanes2remote := by
  rw [packedAddress, packedAddress, packedEntries_effectiveFlags]
  cases ep <;> rfl

theorem readable_effectiveFlags (ep : Option (Ep worker)) (flags : PackFlags) :
    Readable worker peer ep (effectiveFlags ep flags) version rscIndex ↔
      Readable worker peer ep flags version rscIndex := by
  cases ep with
  | some ep => rfl
  | none => exact ⟨fun h => { h with }, fun h => { h with }⟩

theorem unpackName_nameBytes (p : List Byte) :
    (if headerFlags worker flags &&& headerDebugInfo ≠ 0#8 ∧ flags.workerName then
      unpackWorkerAddressName (nameBytes worker flags ++ p)
    else .ok (emptyPeerName, nameBytes worker flags ++ p)) =
    .ok (if worker.addressDebugInfo && flags.workerName then worker.addressName.val
      else emptyPeerName, p) := by
  have hdebug := (headerFlags_bits worker flags).2.2.2
  have hlt := worker.addressName.property
  have hlen : (BitVec.ofNat 8 worker.addressName.val.length).toNat =
      worker.addressName.val.length :=
    toNat_ofNat_of_le (Nat.le_trans hlt.le (by decide))
  have htake : worker.addressName.val.take (workerAddressNameMax - 1) = worker.addressName.val :=
    take_of_length_le (Nat.le_sub_one_of_lt hlt)
  by_cases hname : worker.addressDebugInfo ∧ flags.workerName
  · rw [if_pos (by rwa [hdebug]), nameBytes]
    simp only [hname.1, hname.2, Bool.and_self, if_true]
    rw [unpackWorkerAddressName, cons_append, readByte_cons, ok_bind, hlen,
      readBytes_append rfl, ok_bind, htake]
  rw [if_neg (by rwa [hdebug]), nameBytes]
  have hfalse : (worker.addressDebugInfo && flags.workerName) = false := by simpa using hname
  simp [hfalse]

theorem unpack_packHeader (ep : Option (Ep worker)) (tlBitmap : BitVec maxResources)
    (lanes2remote : Option (Nat → Byte)) (hids : flags.workerUuid = flags.machineId)
    (p : List Byte) : unpack peer (packHeader worker flags version ++ p) flags = (do
      let first ← readByte p
      if first.1 = .ofNat 8 nullResource then
        .ok { packedAddress ep tlBitmap flags version lanes2remote with addressList := [] }
      else do
        let r ← errFree (untilLast (unpackDevice peer flags version) .overread p.length
          { addressList := [], remoteDevices := [], devIndex := 0 } p)
        .ok { packedAddress ep tlBitmap flags version lanes2remote with
          addressList := r.1.addressList }) := by
  have hclient := (headerFlags_bits worker flags).2.2.1
  have hptr : (if headerFlags worker flags &&& headerClientId ≠ 0#8 then
      (clientIdBytes worker flags ++ (nameBytes worker flags ++ p)).drop 8
      else clientIdBytes worker flags ++ (nameBytes worker flags ++ p)) =
      nameBytes worker flags ++ p := by
    simp only [hclient]
    cases hc : flags.clientId <;>
      simp [clientIdBytes, hc, drop_left' (length_leBytes 8 worker.clientId.toNat)]
  rw [packHeader_eq]
  simp only [append_assoc]
  rw [unpack, unpackHeader_eq, ok_bind, unpackIds_idBytes hids, ok_bind, hptr]
  dsimp only
  rw [unpackName_nameBytes, ok_bind]
  rfl

theorem deviceBytes_ne_nil (dev : PackedDevice) (last : Bool) :
    deviceBytes ep lanes2remote flags version dev last ≠ [] := by
  intro hnil
  exact extBytes_ne_nil _ (append_eq_nil_iff.mp hnil).1

theorem classBytes_first {tls : List Nat} (htls : tls ∈ deviceClasses worker tlBitmap)
    (h : ClassesPacked ep lanes2remote flags version tlBitmap) (last : Bool) :
    ∃ b rest, classBytes ep lanes2remote flags version tls last = b :: rest ∧
      b ≠ BitVec.ofNat 8 nullResource := by
  have hne : deviceTls worker (classDevice ep flags version tls) ≠ [] := by
    rw [deviceTls_deviceOf htls]
    exact ne_nil_of_mem_groupOn htls
  obtain ⟨-, hempty⟩ := mdFlags_bits version hne
  obtain ⟨b, rest, hfirst, hflag⟩ := extBytes_first
    (mdFlags worker version (classDevice ep flags version tls)) (mdMask_mem version) (h _ htls).md
  refine ⟨b, _, by rw [classBytes, deviceBytes, hfirst, cons_append], ?_⟩
  rintro rfl
  have hbit := hflag flagMdEmptyDev (by cases version <;> decide)
  rw [hempty] at hbit
  exact absurd hbit (by decide)

section

variable (hpeer : SamePeer worker peer) (hiface : flags.ifaceAddr = true)

include hpeer hiface

/-- An address whose devices have passed the packer and whose resources are all
readable is read back. -/
theorem unpack_bodyBytes (hids : flags.workerUuid = flags.machineId)
    (h : ClassesPacked ep lanes2remote flags version tlBitmap)
    (hr : ∀ rscIndex ∈ packedResources worker tlBitmap,
      Readable worker peer ep flags version rscIndex) : unpack peer (packHeader worker flags version
      ++ bodyBytes ep lanes2remote flags version tlBitmap) flags =
    .ok (packedAddress ep tlBitmap flags version lanes2remote) := by
  rw [unpack_packHeader ep tlBitmap lanes2remote hids]
  by_cases hnil : deviceClasses worker tlBitmap = []
  · rw [bodyBytes, if_pos hnil, readByte_cons, ok_bind, if_pos rfl]
    simp [packedAddress, hnil, packedEntries]
  rw [bodyBytes, if_neg hnil]
  obtain ⟨tls, classes, hclasses⟩ := exists_cons_of_ne_nil hnil
  have hlen : (deviceClasses worker tlBitmap).length ≤ (flagged
      (classBytes ep lanes2remote flags version) (deviceClasses worker tlBitmap)).length :=
    length_le_length_flagged fun _ _ _ => deviceBytes_ne_nil _ _
  obtain ⟨s, hs, hlist⟩ := unpackDevices_flagged hpeer hiface hnil h hr hlen []
  rw [append_nil] at hs
  obtain ⟨last, rest, hflagged⟩ := exists_flagged_cons (classBytes ep lanes2remote flags version)
    tls classes
  have hmem : tls ∈ deviceClasses worker tlBitmap := by simp [hclasses]
  obtain ⟨b, rest', hfirst, hb⟩ := classBytes_first hmem h last
  have hbyte : (readByte (flagged (classBytes ep lanes2remote flags version)
      (deviceClasses worker tlBitmap)) : Outcome Status _) = .ok (b, rest' ++ rest) := by
    rw [hclasses, hflagged, hfirst, cons_append, readByte_cons]
  rw [hbyte, ok_bind, if_neg hb, hs]
  simp [errFree, packedAddress, hlist]

theorem readable_of_limits {dev : DeviceFields} {i : Nat}
    (hlen : (ifaceAddrBytes worker flags rscIndex).length = packedIfaceLen worker flags rscIndex)
    (heps : ∀ lane ∈ packedLanes ep flags rscIndex, EpPacked ep lanes2remote rscIndex lane)
    (h : EntryLimits peer version (tlEntry ep lanes2remote flags version dev i rscIndex)) :
    Readable worker peer ep flags version rscIndex := by
  refine ⟨?_, ?_, ?_, ?_⟩
  · intro hu
    have hrsc := h.rsc (by rw [hpeer.mode, hu])
    simpa [tlEntry, seenIfaceAttr, hu] using hrsc
  · intro hu
    have hle := h.ifaceLen
    simpa [tlEntry, hlen, packedIfaceLen, hiface] using hle
  · intro hne
    obtain ⟨lane, _, hlanes⟩ := exists_cons_of_ne_nil hne
    have hle := h.epLen (epEntry ep lanes2remote lane) (by simp [tlEntry, hlanes])
    rwa [epEntry, (heps lane (by simp [hlanes])).length] at hle
  · intro hu
    have hbw := h.bandwidth (by rw [hpeer.mode, hu])
    simpa [tlEntry, seenIfaceAttr, hu, seenVersionAttr_bandwidth] using hbw

theorem readable_of_unpack {p : List Byte}
    (h : ClassesPacked ep lanes2remote flags version tlBitmap)
    (hunpack : unpack peer (packHeader worker flags version ++ p) flags =
      .ok (packedAddress ep tlBitmap flags version lanes2remote))
    (hmem : rscIndex ∈ packedResources worker tlBitmap) :
    Readable worker peer ep flags version rscIndex := by
  obtain ⟨tls, htls, hr⟩ : ∃ tls ∈ deviceClasses worker tlBitmap, rscIndex ∈ tls :=
    exists_mem_groupOn hmem
  have hpacked : TlPacked ep lanes2remote flags version rscIndex :=
    (h tls htls).tls rscIndex (by rwa [deviceTls_deviceOf htls])
  have hheader : unpackHeader (packHeader worker flags version ++ p) =
      .ok (version, headerFlags worker flags,
        idBytes worker flags ++ (clientIdBytes worker flags ++ nameBytes worker flags) ++ p) := by
    rw [packHeader_eq, append_assoc, unpackHeader_eq]
  obtain ⟨dev, i, hentry⟩ : ∃ dev i, tlEntry ep lanes2remote flags version dev i rscIndex ∈
      packedEntries ep lanes2remote flags version (deviceClasses worker tlBitmap) [] 0 :=
    tlEntry_mem_packedEntries htls hr [] 0
  exact readable_of_limits hpeer hiface hpacked.length hpacked.eps
    (unpack_limits hheader hunpack _ hentry)

end

/-- The reader returns what was packed exactly when every packed resource keeps to
the field widths that the packer leaves unchecked and has a bandwidth the reader
accepts. -/
theorem unpack_pack_iff {worker peer : Worker} (ep : Option (Ep worker))
    (tlBitmap : BitVec maxResources) (flags : PackFlags) (version : ObjectVersion)
    (lanes2remote : Option (Nat → Byte)) {buf : List Byte} (hpeer : SamePeer worker peer)
    (hiface : flags.ifaceAddr = true) (hids : flags.workerUuid = flags.machineId)
    (h : pack worker ep tlBitmap flags version lanes2remote = .ok buf) :
    unpack peer buf flags = .ok (packedAddress ep tlBitmap flags version lanes2remote) ↔
      ∀ rscIndex ∈ packedResources worker tlBitmap,
        Readable worker peer ep flags version rscIndex := by
  have hiface' : (effectiveFlags ep flags).ifaceAddr := by cases ep <;> exact hiface
  have hids' : (effectiveFlags ep flags).workerUuid = (effectiveFlags ep flags).machineId := by
    cases ep <;> exact hids
  obtain ⟨rfl, hpacked⟩ := pack_ok h
  rw [← unpack_effectiveFlags ep, ← packedAddress_effectiveFlags]
  simp only [← readable_effectiveFlags ep flags]
  constructor
  · intro hunpack rscIndex hmem
    exact readable_of_unpack hpeer hiface' hpacked hunpack hmem
  · intro hr
    exact unpack_bodyBytes hpeer hiface' hids' hpacked hr

end

def sampleUnifiedWorker (rscIndex : Nat) : Worker :=
  sampleWorker true (BitVec.twoPow 128 rscIndex) (capBit 41)

def sampleUnifiedEp (rscIndex : Nat) : Ep (sampleUnifiedWorker rscIndex) where
  key := { lanes := [rscIndex], cmLane := none, numLanes_le := by simp [maxLanes] }
  address := fun _ => .ok ⟨[0x0e#8], rfl⟩

/-- A unified worker with resource 3 is read back by its like. -/
theorem unpack_pack_unified :
    ∃ buf, pack (sampleUnifiedWorker 3) (some (sampleUnifiedEp 3)) (BitVec.twoPow 128 3)
        allPackFlags .v2 none = .ok buf ∧
      unpack (sampleUnifiedWorker 3) buf allPackFlags =
        .ok (packedAddress (some (sampleUnifiedEp 3)) (BitVec.twoPow 128 3) allPackFlags .v2
          none) := by
  have hpeer : SamePeer (sampleUnifiedWorker 3) (sampleUnifiedWorker 3) :=
    ⟨rfl, fun _ => rfl, fun _ _ => rfl⟩
  refine ⟨_, rfl, (unpack_pack_iff (some (sampleUnifiedEp 3)) (BitVec.twoPow 128 3) allPackFlags
    .v2 none hpeer rfl rfl rfl).mpr ?_⟩
  have hres : packedResources (sampleUnifiedWorker 3) (BitVec.twoPow 128 3) = [3] := by decide
  intro _ hmem
  rw [hres, mem_singleton] at hmem
  subst hmem
  exact ⟨fun _ => by decide, fun _ => by decide, fun _ => by decide, nofun⟩

/-- Resource 64 of a unified worker is packed with its endpoint address, and the
reader takes its index for a flag. -/
theorem resource_index_lost :
    ∃ buf, pack (sampleUnifiedWorker 64) (some (sampleUnifiedEp 64)) (BitVec.twoPow 128 64)
        allPackFlags .v2 none = .ok buf ∧
      unpack (sampleUnifiedWorker 64) buf allPackFlags = .error (.status .errInvalidParam) :=
  ⟨_, rfl, by decide⟩

end Hucx.Wireup

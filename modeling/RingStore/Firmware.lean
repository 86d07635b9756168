import RingStore.Value.Storable

/-!
# Firmware metadata

One key is reserved for the record that an updater keeps: version, size and MD5 digest of the image
that is installed and of the one that is staged.  The record is 48 bytes, the numbers little-endian,
the fields in order.

## Main statements

* `FirmwareInfo.ofBytes?_toBytes` and `FirmwareInfo.toBytes_of_ofBytes?`: reading and writing are
  inverse to each other on all strings of 48 bytes.
-/

namespace RingStore

/-- Keys with a use of their own.  Applications begin above `SystemKey.maxCode`. -/
inductive SystemKey where
  /-- The firmware metadata. -/
  | firmware
  deriving DecidableEq, Repr

namespace SystemKey

/-- The key of a system record. -/
def code : SystemKey → UInt16
  | firmware => 1

/-- The largest key of a system record. -/
def maxCode : UInt16 := firmware.code

/-- The system record that a key stands for, if any. -/
def ofCode? (key : UInt16) : Option SystemKey :=
  if key = firmware.code then some firmware else none

@[simp] theorem ofCode?_code (key : SystemKey) : ofCode? key.code = some key := by
  cases key; rfl

end SystemKey

/-- The length of an MD5 digest. -/
def digestSize : Nat := 16

/-- An image: its version, size and digest. -/
structure ImageInfo where
  version : UInt32
  size : UInt32
  digest : Vector UInt8 digestSize
  deriving DecidableEq

namespace ImageInfo

/-- The bytes an image takes in a record. -/
def byteSize : Nat := 4 + 4 + digestSize

/-- The bytes of an image. -/
def toBytes (image : ImageInfo) : Bytes :=
  littleEndian 4 image.version.toNat ++ (littleEndian 4 image.size.toNat ++ image.digest.toList)

/-- Reads an image from a string of its size. -/
def ofBytes (bytes : Bytes) (h : bytes.length = byteSize) : ImageInfo where
  version := UInt32.ofNat (ofLittleEndian (bytes.take 4))
  size := UInt32.ofNat (ofLittleEndian ((bytes.drop 4).take 4))
  digest := ⟨(bytes.drop 8).toArray, by simp [h, byteSize]⟩

@[simp] theorem length_toBytes (image : ImageInfo) : image.toBytes.length = byteSize := by
  simp [toBytes, byteSize]
  omega

theorem ofBytes_toBytes (image : ImageInfo) :
    ofBytes image.toBytes image.length_toBytes = image := by
  obtain ⟨version, size, digest⟩ := image
  have hversion : version.toNat % wordBound 4 = version.toNat := Nat.mod_eq_of_lt version.toNat_lt
  have hsize : size.toNat % wordBound 4 = size.toNat := Nat.mod_eq_of_lt size.toNat_lt
  have hdrop : ∀ tail : Bytes,
      (littleEndian 4 version.toNat ++ (littleEndian 4 size.toNat ++ tail)).drop 8 = tail := by
    intro tail
    rw [← List.append_assoc]
    exact List.drop_left' (by simp)
  simp only [ofBytes, toBytes, hdrop]
  rw [List.take_left' (by simp), List.drop_left' (by simp), List.take_left' (by simp),
    ofLittleEndian_littleEndian, ofLittleEndian_littleEndian, hversion, hsize]
  simp only [UInt32.ofNat_toNat, Vector.toArray_toList]

theorem toBytes_ofBytes {bytes : Bytes} (h : bytes.length = byteSize) :
    (ofBytes bytes h).toBytes = bytes := by
  have hword : ∀ part : Bytes, part.length = 4 →
      littleEndian 4 (UInt32.ofNat (ofLittleEndian part)).toNat = part := by
    intro part hpart
    have hlt := ofLittleEndian_lt part
    have hback := littleEndian_ofLittleEndian part
    rw [hpart] at hlt hback
    rw [UInt32.toNat_ofNat_of_lt' hlt, hback]
  rw [byteSize, digestSize] at h
  simp only [toBytes, ofBytes]
  rw [hword _ (by simp; omega), hword _ (by simp; omega)]
  have hdigest : (bytes.drop 4).drop 4 = bytes.drop 8 := by rw [List.drop_drop]
  rw [show (⟨(bytes.drop 8).toArray, by simp [h, digestSize]⟩ : Vector UInt8 digestSize).toList =
    bytes.drop 8 from rfl, ← hdigest, List.take_append_drop, List.take_append_drop]

end ImageInfo

/-- The installed and the staged image. -/
structure FirmwareInfo where
  installed : ImageInfo
  staged : ImageInfo
  deriving DecidableEq

namespace FirmwareInfo

/-- The bytes of a firmware record. -/
def byteSize : Nat := ImageInfo.byteSize + ImageInfo.byteSize

/-- An image is staged that is not installed yet. -/
def isPending (info : FirmwareInfo) : Bool := info.staged.version != info.installed.version

/-- Records the staged image as the installed one. -/
def commit (info : FirmwareInfo) : FirmwareInfo := { info with installed := info.staged }

/-- Nothing is pending after a commit. -/
theorem isPending_commit (info : FirmwareInfo) : info.commit.isPending = false := by
  simp [isPending, commit]

/-- The bytes of a record. -/
def toBytes (info : FirmwareInfo) : Bytes := info.installed.toBytes ++ info.staged.toBytes

/-- Reads a record; a string of any other length is none. -/
def ofBytes? (bytes : Bytes) : Except Error FirmwareInfo :=
  if h : bytes.length = byteSize then
    .ok
      { installed := .ofBytes (bytes.take ImageInfo.byteSize) (by simp [h, byteSize])
        staged := .ofBytes (bytes.drop ImageInfo.byteSize) (by simp [h, byteSize]) }
  else .error .corrupt

@[simp] theorem length_toBytes (info : FirmwareInfo) : info.toBytes.length = byteSize := by
  simp [toBytes, byteSize]

theorem ofBytes?_toBytes (info : FirmwareInfo) : ofBytes? info.toBytes = .ok info := by
  obtain ⟨installed, staged⟩ := info
  have hinstalled := installed.ofBytes_toBytes
  have hstaged := staged.ofBytes_toBytes
  rw [ofBytes?, dif_pos (length_toBytes _)]
  simp only [toBytes, List.take_left' installed.length_toBytes,
    List.drop_left' installed.length_toBytes, hinstalled, hstaged]

theorem toBytes_of_ofBytes? {bytes : Bytes} {info : FirmwareInfo}
    (h : ofBytes? bytes = .ok info) : info.toBytes = bytes := by
  unfold ofBytes? at h
  split at h
  · cases h
    rw [toBytes, ImageInfo.toBytes_ofBytes, ImageInfo.toBytes_ofBytes, List.take_append_drop]
  · cases h

end FirmwareInfo

instance : Storable FirmwareInfo where
  encode := FirmwareInfo.toBytes
  decode := FirmwareInfo.ofBytes?
  decode_encode := FirmwareInfo.ofBytes?_toBytes

end RingStore

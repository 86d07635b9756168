import RingStore.Page.Record

/-!
# The log of a page

The content of a page is a log: records one after the other, and a tail that nothing was written to.
The log ends where no header fits any more, at an unprogrammed length byte, or at a record that would
run past the end of the content.  An append that was cut short shows as a tail that is not blank;
nothing may be appended behind it.

## Main statements

* `Log.toBytes_parse`: records and tail together are the content, nothing is lost.
* `Log.length_payload_of_mem_parse`: every record has the payload length its header says.
-/

namespace RingStore

/-- The records of a page and what is left behind them. -/
structure Log where
  records : List Record
  tail : Bytes

namespace Log

/-- Reads the log of a content. -/
def parse (content : Bytes) : Log :=
  match _hsplit : Header.take? content with
  | none => ⟨[], content⟩
  | some (header, rest) =>
    if header.length = endOfLog then ⟨[], content⟩
    else
      let payload := rest.take header.length.toNat
      if payload.length < header.length.toNat then ⟨[], content⟩
      else
        let log := parse (rest.drop header.length.toNat)
        ⟨⟨header, payload⟩ :: log.records, log.tail⟩
termination_by content.length
decreasing_by
  rw [Header.length_of_take? _hsplit, List.length_drop, headerSize]
  omega

/-- The bytes of a log. -/
def toBytes (log : Log) : Bytes := log.records.flatMap Record.toBytes ++ log.tail

/-- The bytes that the records take. -/
def used (log : Log) : Nat := log.records.foldr (·.header.recordSize + ·) 0

/-- Nothing was left behind by an append that was cut short. -/
def isClean (log : Log) : Bool := isBlank log.tail

/-- The number of live records. -/
def live (checksum : Checksum) (log : Log) : Nat := log.records.countP (·.isLive checksum)

/-- Records with the offsets at which they begin, the first one at the given offset. -/
def locate (offset : Nat) : List Record → List (Nat × Record)
  | [] => []
  | record :: rest => (offset, record) :: locate (offset + record.header.recordSize) rest

/-- The offsets of the damaged records, in log order. -/
def damaged (checksum : Checksum) (log : Log) : List Nat :=
  ((locate 0 log.records).filter (·.2.isDamaged checksum)).map (·.1)

theorem toBytes_parse (content : Bytes) : (parse content).toBytes = content := by
  fun_induction parse content with
  | case1 => rfl
  | case2 => rfl
  | case3 => rfl
  | case4 content header rest h hlength payload hshort log ih =>
    have hbytes := Header.toBytes_of_take? h
    have hrest := List.take_append_drop header.length.toNat rest
    rw [toBytes] at ih ⊢
    rw [List.flatMap_cons, List.append_assoc, ih, Record.toBytes, List.append_assoc, hrest, hbytes]

theorem length_payload_of_mem_parse {content : Bytes} {record : Record}
    (h : record ∈ (parse content).records) :
    record.payload.length = record.header.length.toNat := by
  fun_induction parse content with
  | case1 => cases h
  | case2 => cases h
  | case3 => cases h
  | case4 content header rest _ _ payload hshort log ih =>
    rcases List.mem_cons.mp h with rfl | hmem
    · have hle : payload.length ≤ header.length.toNat := List.length_take_le _ _
      show payload.length = header.length.toNat
      omega
    · exact ih hmem

end Log

end RingStore

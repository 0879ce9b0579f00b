import FingerMinutiae.Decoding.Record

/-!
# Streams of records

Records with a header may follow each other in one stream. Reading them ends when the stream ends
exactly between two of them. A record that the stream cuts short is the last, and so is a failure.
A card goes to the end of the stream, so there is at most one.

## Main definitions

* `Records`: a stream of which some records have been read, and `Records.next?`.
* `Records.upTo`: the first records of a stream.
* `Record.decodeAll`: all records in a string of bytes.
-/

namespace FingerMinutiae

/-- A stream of records of one variant. -/
structure Records (σ : Type) where
  /-- Where the records come from. -/
  source : σ
  /-- Their variant. -/
  variant : Variant
  /-- Nothing more will be read. -/
  finished : Bool := false

/-- A record read from a stream of them, or the failure to read it. -/
abbrev RecordItem := Except DecodeError (Decoded Record)

/-- Whether a stream of records of a variant goes on after an item. -/
def RecordItem.goesOn (variant : Variant) : RecordItem → Bool
  | .ok (.complete _) => variant.hasHeader
  | _ => false

namespace Records

variable {σ : Type} [Source σ]

/-- The next record, or nothing when there is none. -/
def next? (rs : Records σ) : Option RecordItem × Records σ :=
  if rs.finished then (none, rs)
  else
    match Source.atEnd rs.source with
    | (.error e, source) => (some (.error (.read e)), { rs with source, finished := true })
    | (.ok true, source) => (none, { rs with source, finished := true })
    | (.ok false, source) =>
      let (item, source) := (Record.decoder rs.variant).run source
      (some item, { rs with source, finished := !RecordItem.goesOn rs.variant item })

/-- The next records, at most `count` of them, and the stream after them. -/
def upTo : (count : Nat) → Records σ → List RecordItem × Records σ
  | 0, rs => ([], rs)
  | count + 1, rs =>
    match rs.next? with
    | (none, rs) => ([], rs)
    | (some item, rs) =>
      let (items, rs) := upTo count rs
      (item :: items, rs)

end Records

/-- All records of a variant in a string of bytes. No item but the last takes less than a byte,
so the stream is over after one item more than there are bytes. -/
def Record.decodeAll (variant : Variant) (bytes : Bytes) : List RecordItem :=
  (Records.upTo (bytes.length + 1) { source := Buffer.ofBytes bytes, variant }).1

end FingerMinutiae

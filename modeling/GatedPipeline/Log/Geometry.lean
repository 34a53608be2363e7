import GatedPipeline.Record

/-!
Where things stand in a log file. Every entry is a header word and a body; bodies start on a
boundary of 64 bytes, so the header of the next record ends on one, and a filler bridges the gap
to it. Positions are byte offsets.
-/

namespace GatedPipeline.Log

/-- Boundary of record bodies, in bytes. -/
def alignment : Nat := 64

def headerBytes : Nat := 8

/-- Bytes of a page; a file has whole pages. -/
def pageBytes : Nat := 4096

/-- Where the next header stands when the entry before it ends at `position`. -/
def headerAfter (position : Nat) : Except Fault Nat := do
  let boundary ← Checked.roundUp (← Checked.add position headerBytes) alignment
  Checked.sub boundary headerBytes

/-- A file size that holds so many bytes: whole pages, and at least one. -/
def capacityFor (bytes : Nat) : Except Fault Nat :=
  Checked.roundUp (max bytes pageBytes) pageBytes

end GatedPipeline.Log

namespace GatedPipeline.Layout

/-- Bytes from the body of one record to the body of the next. -/
def stride (layout : Layout) : Except Fault Nat := do
  Checked.roundUp (← Checked.add layout.bytes Log.headerBytes) Log.alignment

def bytesFor (layout : Layout) (records : Nat) : Except Fault Nat := do
  let entries ← Checked.mul (← layout.stride) records
  Checked.roundUp (← Checked.add Log.alignment entries) Log.pageBytes

end GatedPipeline.Layout

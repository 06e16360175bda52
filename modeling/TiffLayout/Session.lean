import TiffLayout.Rebuild
/-! An edit session: a draft and, once one was made, its plan, changed step by step. A step
names directories by kind, fields by tag and items by id; naming one that does not exist
fails without a change. A failing step keeps whatever change the library made before it
failed, and the following steps go on from there. -/
namespace TiffLayout

/-- Why a step of a session fails. -/
inductive SessionError where
  | noDirectory (k : DirectoryKind)
  | noField (t : Tag)
  | noSummary
  | noItem (id : Nat)
  /-- A counted tag went past the largest 16-bit code. -/
  | tagTooLarge (n : Nat)
  | read (e : ReadError)
  | layout (e : LayoutError)
  deriving DecidableEq, Repr

namespace SessionError

/-- The text of a failed step. -/
def message : SessionError → String
  | noDirectory k => "no directory " ++ k.name
  | noField t => "no field " ++ t.display
  | noSummary => "no summary"
  | noItem id => s!"no item {id}"
  | tagTooLarge _ => "tag exceeds u16"
  | read e => e.message
  | layout e => e.message

end SessionError

/-- A field to be added; SHORT and LONG values are encoded in the draft's byte order. -/
inductive FieldSpec where
  | raw (tag : Tag) (type : FieldType) (count : Nat) (bytes : ByteArray)
  | ascii (tag : Tag) (text : String)
  | short (tag : Tag) (value : Nat)
  | long (tag : Tag) (value : Nat)
  | undefined (tag : Tag) (bytes : ByteArray)

/-- The field that a specification describes. -/
def FieldSpec.toField (o : ByteOrder) : FieldSpec → Field
  | raw t ty n b => Field.raw t ty n b
  | ascii t s => Field.ascii t s
  | short t v => Field.short t v o
  | long t v => Field.long t v o
  | undefined t b => Field.undefined t b

/-- How a draft is written. -/
inductive WriteMode where
  /-- Reusing the old segment's layout when one is given, compactly otherwise. -/
  | auto (old : Option ByteArray)
  | compact
  /-- Reusing the old segment's layout; without a list, the default frozen tags. -/
  | reuse (old : ByteArray) (frozen : Option (List Tag))

/-- One step of a session. -/
inductive Step where
  /-- Starts over with an empty draft. -/
  | reset (o : ByteOrder)
  /-- Starts over with the draft that reproduces a segment. -/
  | load (data : ByteArray)
  | addDirectory (k : DirectoryKind) (o : Option ByteOrder)
  | getOrCreate (k : DirectoryKind)
  /-- Creates the Exif directory, then the GPS directory. -/
  | getOrCreateGps
  | addField (k : DirectoryKind) (f : FieldSpec)
  /-- Adds SHORT fields whose tags and values count up from `start`, up to the first failure;
  a tag past the 16-bit range is a failure. -/
  | addShorts (k : DirectoryKind) (start n : Nat)
  | removeField (k : DirectoryKind) (t : Tag)
  | removeFieldAll (t : Tag)
  | findField (t : Tag)
  | setBytes (k : DirectoryKind) (t : Tag) (count : Nat) (bytes : ByteArray)
  | setThumbnail (k : DirectoryKind) (bytes : Option ByteArray)
  /-- Writes a copy of the draft; the session does not change. -/
  | write (o : Option ByteOrder) (mode : WriteMode)
  | summarize
  | place (id offset : Nat)
  | patch
  | rootOffset
  /-- Writes an item into a buffer of zeros. -/
  | writeItem (id length : Nat)

/-- What a step gives back. -/
inductive Reply where
  | none
  | field (f : Option Field)
  | fields (fs : List Field)
  | segment (bytes : ByteArray)
  | offset (n : Nat)
  | buffer (bytes : ByteArray)

/-- A draft and its plan, if one was made. -/
structure Session where
  draft : Draft
  plan : Option Plan := none

namespace Session

/-- A session on an empty draft. -/
def start (o : ByteOrder) : Session := ⟨Draft.empty o, none⟩

/-- Changes the directory of a kind with a step that may fail. -/
def editDirectory (s : Session) (k : DirectoryKind)
    (g : Directory → Except SessionError (Directory × Reply)) : Session × Except SessionError Reply :=
  match s.draft.find? k with
  | none => (s, .error (.noDirectory k))
  | some x =>
    match g x with
    | .ok (x', r) => ({ s with draft := s.draft.update k fun _ => x' }, .ok r)
    | .error e => (s, .error e)

/-- Adds SHORT fields counting up from `start`, stopping at the first failure. A count that
leaves the 16-bit range of tags stops before its field is made. -/
def addShorts (o : ByteOrder) (start : Nat) : Nat → Directory → Directory × Option SessionError
  | 0, x => (x, none)
  | n + 1, x =>
    if start < Width.bits16.bound then
      match x.addField (Field.short ⟨start.toUInt16⟩ start o) with
      | .ok x' => addShorts o (start + 1) n x'
      | .error e => (x, some (.layout e))
    else (x, some (.tagTooLarge start))

/-- Writes a draft as a step asks. -/
def writeDraft (d : Draft) (o : ByteOrder) : WriteMode → Except LayoutError ByteArray
  | .auto old => d.writeSegment old o
  | .compact => Compact.write o d
  | .reuse old frozen => Reuse.write o old (frozen.getD Reuse.defaultFrozen) d

/-- Runs a step that needs the plan. -/
def withPlan (s : Session) (g : Plan → Session × Except SessionError Reply) :
    Session × Except SessionError Reply :=
  match s.plan with
  | some p => g p
  | none => (s, .error .noSummary)

/-- Runs one step. -/
def step (s : Session) : Step → Session × Except SessionError Reply
  | .reset o => (start o, .ok .none)
  | .load data =>
    match Segment.read data with
    | .error e => (s, .error (.read e))
    | .ok seg =>
      match Draft.ofSegment seg with
      | .ok d => (⟨d, none⟩, .ok .none)
      | .error e => (s, .error (.layout e))
  | .addDirectory k o =>
    match s.draft.addDirectory (Directory.empty k (o.getD s.draft.byteOrder)) with
    | .ok d => ({ s with draft := d }, .ok .none)
    | .error e => (s, .error (.layout e))
  | .getOrCreate k => ({ s with draft := s.draft.getOrCreate k }, .ok .none)
  | .getOrCreateGps =>
    ({ s with draft := (s.draft.getOrCreate .exif).getOrCreate .gps }, .ok .none)
  | .addField k f =>
    s.editDirectory k fun x =>
      match x.addField (f.toField s.draft.byteOrder) with
      | .ok x' => .ok (x', .none)
      | .error e => .error (.layout e)
  | .addShorts k start n =>
    match s.draft.find? k with
    | none => (s, .error (.noDirectory k))
    | some x =>
      let (x', failure) := addShorts s.draft.byteOrder start n x
      let s' := { s with draft := s.draft.update k fun _ => x' }
      match failure with
      | some e => (s', .error e)
      | none => (s', .ok .none)
  | .removeField k t =>
    s.editDirectory k fun x =>
      let (x', removed) := x.removeField t
      .ok (x', .field removed)
  | .removeFieldAll t =>
    let (d, removed) := s.draft.removeFieldAll t
    ({ s with draft := d }, .ok (.fields removed))
  | .findField t => (s, .ok (.field (s.draft.findField? t)))
  | .setBytes k t count bytes =>
    s.editDirectory k fun x =>
      match x.find? t with
      | some _ => .ok (x.updateField t (·.setBytes count bytes), .none)
      | none => .error (.noField t)
  | .setThumbnail k bytes =>
    s.editDirectory k fun x => .ok (x.setThumbnail bytes, .none)
  | .write o mode =>
    match writeDraft s.draft (o.getD s.draft.byteOrder) mode with
    | .ok b => (s, .ok (.segment b))
    | .error e => (s, .error (.layout e))
  | .summarize =>
    match s.draft.plan with
    | (d, .ok p) => (⟨d, some p⟩, .ok .none)
    | (d, .error e) => (⟨d, none⟩, .error (.layout e))
  | .place id offset =>
    s.withPlan fun p =>
      if id < p.items.length then
        match p.place id offset with
        | .ok p' => ({ s with plan := some p' }, .ok .none)
        | .error e => (s, .error (.layout e))
      else (s, .error (.noItem id))
  | .patch =>
    s.withPlan fun p =>
      let (d, r) := p.patch s.draft
      ({ s with draft := d }, (r.mapError .layout).map fun _ => .none)
  | .rootOffset =>
    s.withPlan fun p =>
      match p.rootOffset with
      | .ok n => (s, .ok (.offset n))
      | .error e => (s, .error (.layout e))
  | .writeItem id length =>
    s.withPlan fun p =>
      match p.writeItem id s.draft (Buffer.zeros length) with
      | (buf, .ok ()) => (s, .ok (.buffer buf))
      | (_, .error e) => (s, .error (.layout e))

end Session

end TiffLayout

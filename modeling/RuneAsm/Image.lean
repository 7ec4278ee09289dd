import RuneAsm.Record

namespace RuneAsm

-- The image starts at the load base. Writing only moves forward; what is left out on the way is zero.

-- The cursor may stand past the end.
structure Sink where
  content : Array UInt8 := #[]
  cursor : Nat := 0
deriving DecidableEq, Repr

namespace Sink

-- After zeros if the cursor stands past the end.
def put (s : Sink) (b : UInt8) : Sink :=
  if s.cursor < s.content.size then
    { content := s.content.setIfInBounds s.cursor b, cursor := s.cursor + 1 }
  else
    { content := (s.content ++ Array.replicate (s.cursor - s.content.size) 0).push b
      cursor := s.cursor + 1 }

def write (s : Sink) (data : List UInt8) : Sink := data.foldl put s

def seek (s : Sink) (cursor : Nat) : Sink := { s with cursor }

end Sink

-- The bytes are counted without the gaps.
structure Emission where
  sink : Sink
  written : Nat := 0

namespace Emission

def refuse (e : Emission) (r : Record) (fault : OutputFault) : Run Emission :=
  .fail e (.report ⟨.output fault, r.token?.map (·.location), none⟩)

-- A record may lie neither below the load base nor before the cursor.
def step (loadBase : Int) (e : Emission) (r : Record) : Run Emission :=
  match r.data with
  | .error f => .fail e f
  | .ok [] => .ok e
  | .ok data =>
    let offset := r.position - loadBase
    if offset < 0 then e.refuse r (.belowBase r.position loadBase)
    else if offset < e.sink.cursor then e.refuse r (.rewind (e.sink.cursor + loadBase) r.position)
    else .ok { sink := (e.sink.seek offset.toNat).write data, written := e.written + data.length }

end Emission

def Sink.emit (s : Sink) (loadBase : Int) (records : List Record) : Run Emission :=
  Run.each (Emission.step loadBase) ⟨s, 0⟩ records

end RuneAsm

import DemandPaging.File
import DemandPaging.Step

namespace DemandPaging

/-- Where the bytes of a file page come from; the page is zero past `readBytes`. -/
structure Backing where
  handle : Handle
  offset : Nat
  readBytes : Nat

inductive Purpose
  | anon
  | stack
  | file (b : Backing)

inductive Filling
  | segment (b : Backing)
  | snapshot (page : Contents)
  | custom (run : Contents → Reading pageSize)

inductive PageState
  | untouched (filling : Option Filling) (purpose : Purpose)
  | anon (slot : Option Slot) (stack : Bool)
  | file (b : Backing)

inductive Kind
  | untouched
  | anon
  | file
deriving DecidableEq

structure Page where
  writable : Bool
  frame : Option FrameId
  state : PageState

namespace Backing

def expected (b : Backing) : Nat := min b.readBytes pageSize

def load {n : Nat} (b : Backing) (f : File) (buf : Buffer n) : Except Panic (Reading n × File) :=
  if n < b.expected then .error .noSuchIndex
  else
    let (data, f) := f.read b.offset b.expected
    let buf := buf.overlay 0 data
    if data.size = b.expected then .ok (⟨buf.clearFrom b.expected, none⟩, f)
    else .ok (⟨buf, some (.storage (.shortRead b.expected data.size))⟩, f)

def written (b : Backing) (count : Nat) : Option PagingError :=
  if count = b.expected then none else some (.storage (.shortWrite b.expected count))

def text (b : Backing) : String :=
  s!"FileBacking \x7b offset: {b.offset}, read_bytes: {b.readBytes}, .. \x7d"

end Backing

def Purpose.text : Purpose → String
  | anon => "Anon"
  | stack => "Stack"
  | file b => s!"File({b.text})"

def Purpose.isStack : Purpose → Bool
  | stack => true
  | anon | file _ => false

def Purpose.state : Purpose → PageState
  | anon => .anon none false
  | stack => .anon none true
  | file b => .file b

def Kind.text : Kind → String
  | untouched => "Uninit"
  | anon => "Anon"
  | file => "File"

namespace Page

def lazy (writable : Bool) (purpose : Purpose) (filling : Option Filling) : Page :=
  ⟨writable, none, .untouched filling purpose⟩

def isResident (p : Page) : Bool := p.frame.isSome

def kind (p : Page) : Kind :=
  match p.state with
  | .untouched _ _ => .untouched
  | .anon _ _ => .anon
  | .file _ => .file

/-- The kind that the page has, or will have once it has contents. -/
def finalKind (p : Page) : Kind :=
  match p.state with
  | .untouched _ (.file _) | .file _ => .file
  | .untouched _ .anon | .untouched _ .stack | .anon _ _ => .anon

def isStack (p : Page) : Bool :=
  match p.state with
  | .untouched _ purpose => purpose.isStack
  | .anon _ stack => stack
  | .file _ => false

def slot? (p : Page) : Option Slot :=
  match p.state with
  | .anon slot _ => slot
  | .untouched _ _ | .file _ => none

def debugText (p : Page) (va : Addr) : String :=
  let frame := (p.frame.map fun f => s!"Some({f.text})").getD "None"
  s!"Page \x7b va: {hexText va}, writable: {p.writable}, frame: {frame}, kind: {p.kind.text} \x7d"

end Page

def Filling.handles : Filling → List Handle
  | segment b => [b.handle]
  | snapshot _ | custom _ => []

def Purpose.handles : Purpose → List Handle
  | file b => [b.handle]
  | anon | stack => []

def Page.handles (p : Page) : List Handle :=
  match p.state with
  | .untouched filling purpose => (filling.map Filling.handles).getD [] ++ purpose.handles
  | .anon _ _ => []
  | .file b => [b.handle]

end DemandPaging

import DemandPaging.Page
import DemandPaging.PageTable
import Std.Data.ExtTreeMap

namespace DemandPaging

structure Region where
  handle : Handle
  pages : Nat

structure Space where
  pages : Std.ExtTreeMap Addr Page
  regions : Std.ExtTreeMap Addr Region
  table : PageTable
  /-- The lowest address of the stack pages made so far. -/
  stackBottom : Addr
  /-- The user's stack pointer when it last entered the kernel. -/
  savedStack : Addr

namespace Space

def empty : Space := ⟨∅, ∅, .empty, stackTop, stackTop⟩

def page? (s : Space) (va : Addr) : Option Page := s.pages[pageBase va]?

def state? (s : Space) (va : Addr) : Option PageState := (s.page? va).map (·.state)

def addPage (s : Space) (va : Addr) (p : Page) : Except PagingError Space :=
  if s.pages.contains va then .error (.pageExists va)
  else .ok { s with pages := s.pages.insert va p }

def setPage (s : Space) (va : Addr) (p : Page) : Space :=
  { s with pages := s.pages.insert (pageBase va) p }

def erasePage (s : Space) (va : Addr) : Space := { s with pages := s.pages.erase (pageBase va) }

def handles (s : Space) : List Handle :=
  s.regions.toList.map (·.2.handle) ++ s.pages.toList.flatMap (·.2.handles)

end Space

end DemandPaging

import Sisop.ForkPages
import Sisop.FsFiles
import Sisop.Trace

/-! The open files of `fs/serv.c`, and the environments that share the pages of their
descriptors. Physical pages are numbers; `maps` counts the places where the clients have
a page mapped, and `ppRef` is the counter of the kernel. -/
namespace Sisop

abbrev maxopen : ℕ := 1024

/-- `O_ACCMODE`, `O_CREAT`, `O_TRUNC` and `O_EXCL`. -/
abbrev oAccmode : Word := 0x3#32
abbrev oCreat : Word := 0x100#32
abbrev oTrunc : Word := 0x200#32
abbrev oExcl : Word := 0x400#32

/-- `struct OpenFile`. Its `o_fd` is a fixed address for each. -/
structure OpenFile where
  oFileid : Word
  oFile : Word
  oMode : Word

/-- The fields of `struct Fd` that the server fills in. -/
structure FdFields where
  fdDevId : Word
  fdOmode : Word
  fileId : Word

structure OpenTab where
  opentab : ℕ → OpenFile
  /-- The page that the server has mapped at `o_fd`. -/
  fdPage : ℕ → Option ℕ
  fds : ℕ → FdFields
  maps : ℕ → ℕ
  ppRef : ℕ → BitVec 16
  free : ℕ → Bool

namespace OpenTab

/-- `pageref(opentab[i].o_fd)`. -/
def pageref (s : OpenTab) (i : ℕ) : ℕ :=
  match s.fdPage i with
  | none => 0
  | some p => (s.ppRef p).toNat

def setRef (s : OpenTab) (p : ℕ) (r : BitVec 16) : OpenTab := { s with ppRef := Function.update s.ppRef p r }

/-- `page_decref`. -/
def decref (s : OpenTab) (p : ℕ) : OpenTab :=
  let t := s.setRef p (s.ppRef p - 1)
  if t.ppRef p = 0 then { t with free := Function.update t.free p true } else t

/-- `sys_page_alloc(0, opentab[i].o_fd)`, where `page_alloc` returns the page `p`. -/
def pageAlloc (s : OpenTab) (i p : ℕ) : OpenTab :=
  let t := { s.setRef p (s.ppRef p + 1) with free := Function.update s.free p false }
  let u := (s.fdPage i).elim t t.decref
  { u with fdPage := Function.update u.fdPage i (some p) }

def setSlot (s : OpenTab) (i : ℕ) (o : OpenFile) : OpenTab := { s with opentab := Function.update s.opentab i o }

/-- The next id of the slot `i`, whose page is cleared. -/
def take (s : OpenTab) (i : ℕ) : OpenTab :=
  let t := s.setSlot i { s.opentab i with oFileid := (s.opentab i).oFileid + BitVec.ofNat 32 maxopen }
  match s.fdPage i with
  | none => t
  | some p => { t with fds := Function.update t.fds p ⟨0#32, 0#32, 0#32⟩ }

/-- A client maps a page that it has, or gets, once more. -/
def map (s : OpenTab) (p : ℕ) : OpenTab :=
  { s.setRef p (s.ppRef p + 1) with maps := Function.update s.maps p (s.maps p + 1) }

/-- A client unmaps a page. -/
def unmap (s : OpenTab) (p : ℕ) : OpenTab :=
  { s with maps := Function.update s.maps p (s.maps p - 1) }.decref p

/-- A client gets a page from the kernel. -/
def getPage (s : OpenTab) (p : ℕ) : OpenTab := { s.map p with free := Function.update s.free p false }

end OpenTab

/-- What the server returns to a client for an error. -/
def errWord (code : ℕ) : Word := - BitVec.ofNat 32 code

/-- The slot that `openfile_alloc` finds. -/
def OpenTab.usable (s : OpenTab) : Option ℕ := (List.range maxopen).find? fun i => s.pageref i ≤ 1

/-- `openfile_alloc`, with the slot in `*o`. The kernel has the page `given`, if any. -/
def openfileAlloc (given : Option ℕ) : Routine OpenTab (Word × Option ℕ) := fun s =>
  match s.usable with
  | none => .ret (errWord FsErr.maxOpen.code, none) s
  | some i =>
    if s.pageref i = 0 then
      match given with
      | none => .ret (errWord 4, none) s
      | some p =>
        let t := (s.pageAlloc i p).take i
        .ret ((t.opentab i).oFileid, some i) t
    else
      let t := s.take i
      .ret ((t.opentab i).oFileid, some i) t

/-- `openfile_lookup`. -/
def openfileLookup (s : OpenTab) (fileid : Word) : Except FsErr ℕ :=
  let i := fileid.toNat % maxopen
  if s.pageref i ≤ 1 ∨ (s.opentab i).oFileid ≠ fileid then .error .inval else .ok i

/-- The file server. -/
structure Server where
  tab : OpenTab
  fs : Fs

/-- The path in a request, up to its null byte or the end of the buffer. -/
def reqPath (bytes : List (BitVec 8)) : List (BitVec 8) := (bytes.take (maxpathlen - 1)).takeWhile (· ≠ 0#8)

/-- What `serve_open` does with the path. -/
def openPath (path : List (BitVec 8)) (omode : Word) : Routine Fs (Except FsErr Word) := do
  let r ←
    if omode &&& oCreat ≠ 0#32 then do
      let created ← fileCreate fileGetBlock path
      match created with
      | .ok f => pure (.ok f)
      | .error e =>
        if omode &&& oExcl = 0#32 ∧ e = .fileExists then fileOpen fileGetBlock path else pure (.error e)
    else
      fileOpen fileGetBlock path
  orReturn r fun f => do
    let r ← if omode &&& oTrunc ≠ 0#32 then fileSetSize f 0#32 else pure (.ok ())
    orReturn r fun _ => fileOpen fileGetBlock path

/-- The open file and its descriptor, for the slot `i`. -/
def OpenTab.fillIn (s : OpenTab) (i : ℕ) (f omode : Word) : OpenTab :=
  let t := s.setSlot i { s.opentab i with oFile := f, oMode := omode }
  match s.fdPage i with
  | none => t
  | some p => { t with fds := Function.update t.fds p ⟨0x66#32, omode &&& oAccmode, (s.opentab i).oFileid⟩ }

/-- `serve_open`, with the slot whose page goes to the client. -/
def serveOpen (given : Option ℕ) (bytes : List (BitVec 8)) (omode : Word) : Routine Server (Word × Option ℕ) := do
  let (r, o) ← Routine.zoom Server.tab (fun t s => { s with tab := t }) (openfileAlloc given)
  if r.toInt < 0 then
    return (r, none)
  else match o with
    | none => return (r, none)
    | some i => do
      let opened ← Routine.zoom Server.fs (fun t s => { s with fs := t }) (openPath (reqPath bytes) omode)
      match opened with
      | .error e => return (errWord e.code, none)
      | .ok f => do
        Routine.modify fun s => { s with tab := s.tab.fillIn i f omode }
        return (0#32, some i)

/-- The server and the slot whose page it sends, if any. -/
structure FsSys where
  srv : Server
  reply : Option ℕ

/-- What happens. `alloc` has the slot and the id of an `openfile_alloc`. -/
inductive OpenEvent where
  | serve (alloc : Option (ℕ × Word))
  | request
  | send (i : ℕ)
  | skip
  | map (p : ℕ)
  | unmap (p : ℕ)
  | get (p : ℕ)

def FsSys.setTab (s : FsSys) (t : OpenTab) : FsSys := { s with srv.tab := t }

/-- The slot and the id of an `openfile_alloc`, if it returns one. -/
def allocated (given : Option ℕ) (s : OpenTab) : Option (ℕ × Word) :=
  match openfileAlloc given s with
  | .ret (r, some i) _ => some (i, r)
  | _ => none

/-- The server opens a file, does some other request or replies; or a client maps or unmaps
a page, its own or one that it got from another client. -/
inductive OpenStep (s : FsSys) : OpenEvent → FsSys → Prop where
  | serve {given : Option ℕ} {bytes : List (BitVec 8)} {omode r : Word} {pg : Option ℕ} {srv : Server}
      (hidle : s.reply = none) (hmem : ∀ p, given = some p → s.srv.tab.free p = true)
      (hr : serveOpen given bytes omode s.srv = .ret (r, pg) srv) :
      OpenStep s (.serve (allocated given s.srv.tab)) ⟨srv, pg⟩
  | request {fs : Fs} (hidle : s.reply = none) : OpenStep s .request { s with srv.fs := fs }
  | send {i p : ℕ} (hi : s.reply = some i) (hp : s.srv.tab.fdPage i = some p) :
      OpenStep s (.send i) ⟨{ s.srv with tab := s.srv.tab.map p }, none⟩
  | skip {i : ℕ} (hi : s.reply = some i) : OpenStep s .skip { s with reply := none }
  | map {p : ℕ} (hp : 0 < s.srv.tab.maps p) : OpenStep s (.map p) (s.setTab (s.srv.tab.map p))
  | unmap {p : ℕ} (hp : 0 < s.srv.tab.maps p) : OpenStep s (.unmap p) (s.setTab (s.srv.tab.unmap p))
  | get {p : ℕ} (hp : s.srv.tab.free p = true) : OpenStep s (.get p) (s.setTab (s.srv.tab.getPage p))

/-- After `serve_init`: no slot has a page, and the kernel counts the mappings right. -/
structure OpenStart (s : FsSys) : Prop where
  ids : ∀ i < maxopen, (s.srv.tab.opentab i).oFileid = BitVec.ofNat 32 i
  pages : ∀ i, s.srv.tab.fdPage i = none
  refs : ∀ p, (s.srv.tab.ppRef p).toNat = s.srv.tab.maps p
  free : ∀ p, s.srv.tab.free p = true → s.srv.tab.maps p = 0
  idle : s.reply = none

end Sisop

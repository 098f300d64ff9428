import Mathlib.Data.BitVec
import Mathlib.Data.List.Destutter
import YumiBrowser.Library.ByteCodec

namespace YumiBrowser.Dashboard

open Wire

inductive Access
  | read (ptr len : ℕ)
  | write (ptr len : ℕ)
  | handed (ptr len : ℕ)
  | staged (capacity ptr len : ℕ)
  deriving DecidableEq

structure Reply where
  value : BitVec 32
  accesses : List Access

inductive Query
  | peers (statusFilter : BitVec 32)
  | roles
  | webapps
  | servers (type : BitVec 32)
  | invites
  | audit (since : BitVec 64)

structure Registry where
  count : Query → Option (BitVec 32)
  select : Query → BitVec 32 → Except (BitVec 32) (List ℕ)
  -- the `prev_hash` of the rows, sorted, or nothing where there is no memory for that many forks
  forks : BitVec 32 → Except (BitVec 32) (List (List (List Byte)))
  stalePeers : BitVec 64 → Option (List ℕ)

structure Group where
  groupId : Bytes 32
  registry : Option Registry

structure Font where
  rasterize : BitVec 32 → BitVec 32 → Option (BitVec 32 × BitVec 32)
  bitmap : BitVec 32 → Option (BitVec 32 × BitVec 32)

/-- A web app and what its host functions look at. -/
structure Guest where
  memory : Option (List Byte)
  small : ∀ m, memory = some m → m.length ≤ 4294967296
  groupIndex : BitVec 32
  groups : List Group
  slots : List (BitVec 32)
  transport : Bool
  clipboardText : List Byte
  clipboardLease : Bool
  fonts : BitVec 32 → Option Font

namespace Guest

variable (g : Guest)

def memSize : ℕ := (g.memory.getD []).length

def ipcMemCheck (ptr len : BitVec 32) : Bool := g.memory.isSome ∧ ptr.toNat + len.toNat ≤ g.memSize

section Lists

/-- A NULL group id is the group of the caller; no group is `UINT32_MAX`. -/
def resolveGroupArg (gidPtr : BitVec 32) : BitVec 32 × List Access :=
  if gidPtr = 0 then (g.groupIndex, [])
  else if g.ipcMemCheck gidPtr 32 then
    let gid := ((g.memory.getD []).drop gidPtr.toNat).take 32
    (((g.groups.findIdx? (·.groupId.val = gid)).map (BitVec.ofNat 32)).getD 0xffffffff, [.read gidPtr.toNat 32])
  else (0xffffffff, [])

def grResolve (gi : BitVec 32) : Option Registry := g.groups[gi.toNat]?.bind Group.registry

/-- `while (count < max_count && (chunk = duckdb_fetch_chunk(result)) != NULL)` -/
def listed (maxCount count : ℕ) : List ℕ → ℕ
  | [] => count
  | rows :: rest => if count < maxCount then listed maxCount (min (count + rows) maxCount) rest else count

def records (out size n : ℕ) : List Access := (List.range n).map fun i => .write (out + i * size) size

/-- The `dashboard_gr_*_list` functions. -/
def grList (reg : Option Registry) (q : Query) (size : BitVec 32) (out cap : BitVec 32)
    (value : BitVec 32 → BitVec 32 → BitVec 32) : Reply :=
  match reg with
  | none => ⟨-1, []⟩
  | some reg =>
    match reg.count q with
    | none => ⟨-1, []⟩
    | some total =>
      if out = 0 ∨ cap = 0 then ⟨total, []⟩
      else
        let toCopy := if cap < total then cap else total
        match reg.select q toCopy with
        | .error e => ⟨e, []⟩
        | .ok chunks =>
          let got := listed toCopy.toNat 0 chunks
          ⟨value total (BitVec.ofNat 32 got), records out.toNat size.toNat got⟩

def dashboardGrPeerList (reg : Option Registry) (statusFilter out cap : BitVec 32) : Reply :=
  grList reg (.peers statusFilter) 280 out cap fun total _ => total

def dashboardGrRoleList (reg : Option Registry) (out cap : BitVec 32) : Reply :=
  grList reg .roles 152 out cap fun total _ => total

def dashboardGrWebappList (reg : Option Registry) (out cap : BitVec 32) : Reply :=
  grList reg .webapps 304 out cap fun total _ => total

def dashboardGrServerList (reg : Option Registry) (type out cap : BitVec 32) : Reply :=
  grList reg (.servers type) 4480 out cap fun total _ => total

def dashboardGrInviteList (reg : Option Registry) (out cap : BitVec 32) : Reply :=
  grList reg .invites 216 out cap fun total _ => total

def dashboardGrAuditList (reg : Option Registry) (since : BitVec 64) (out cap : BitVec 32) : Reply :=
  grList reg (.audit since) 600 out cap fun _ got => got

/-- `gr_audit_list_forks`: how many forks have been begun, and the last one, after the rows of a chunk. -/
def forkRows (maxForks : ℕ) : ℕ × Option (List Byte) → List (List Byte) → ℕ × Option (List Byte)
  | r, [] => r
  | (forkIdx, current), prevHash :: rest =>
    if forkIdx < maxForks then
      if current = some prevHash then forkRows maxForks (forkIdx, current) rest
      else
        let forkIdx := if current.isSome then forkIdx + 1 else forkIdx
        if forkIdx < maxForks then forkRows maxForks (forkIdx, some prevHash) rest else (forkIdx, current)
    else (forkIdx, current)

def forkChunks (maxForks : ℕ) : ℕ × Option (List Byte) → List (List (List Byte)) → ℕ × Option (List Byte)
  | r, [] => r
  | r, chunk :: rest => if r.1 < maxForks then forkChunks maxForks (forkRows maxForks r chunk) rest else r

def grAuditListForks (maxForks : ℕ) (chunks : List (List (List Byte))) : ℕ :=
  let r := forkChunks maxForks (0, none) chunks
  if r.2.isSome ∧ r.1 < maxForks then r.1 + 1 else r.1

def dashboardGrAuditListForks (reg : Option Registry) (out cap : BitVec 32) : Reply :=
  match reg with
  | none => ⟨-1, []⟩
  | some reg =>
    -- a NULL array is refused, and no room is room for no fork
    if out = 0 then ⟨-1, []⟩
    else if cap = 0 then ⟨-1, []⟩
    else
      match reg.forks cap with
      | .error e => ⟨e, []⟩
      | .ok chunks =>
        let got := grAuditListForks cap.toNat chunks
        ⟨BitVec.ofNat 32 got, records out.toNat 1544 got⟩

def dashboardGrBehaviorStalePeers (reg : Option Registry) (staleMs : BitVec 64) (out cap : BitVec 32) : Reply :=
  match reg with
  | none => ⟨-1, []⟩
  | some reg =>
    if out = 0 ∨ staleMs.sle 0 then ⟨-1, []⟩
    else
      match reg.stalePeers staleMs with
      | none => ⟨-1, []⟩
      | some chunks =>
        let got := listed cap.toNat 0 chunks
        ⟨BitVec.ofNat 32 got, records out.toNat 32 got⟩

def hostList (gidPtr size out cap : BitVec 32) (list : Option Registry → BitVec 32 → BitVec 32 → Reply) : Reply :=
  let r := g.resolveGroupArg gidPtr
  if r.1 ≠ 0xffffffff ∧ (out = 0 ∨ cap = 0 ∨ g.ipcMemCheck out (cap * size)) then
    let reply := list (g.grResolve r.1) out cap
    ⟨reply.value, r.2 ++ reply.accesses⟩
  else ⟨-1, r.2⟩

def hostDashboardPeerList (gid sf out cap : BitVec 32) : Reply :=
  g.hostList gid 280 out cap fun reg => dashboardGrPeerList reg sf

def hostDashboardRoleList (gid out cap : BitVec 32) : Reply := g.hostList gid 152 out cap dashboardGrRoleList

def hostDashboardGroupWebappList (gid out cap : BitVec 32) : Reply :=
  g.hostList gid 304 out cap dashboardGrWebappList

def hostDashboardServerList (gid type out cap : BitVec 32) : Reply :=
  g.hostList gid 4480 out cap fun reg => dashboardGrServerList reg type

def hostDashboardInviteList (gid out cap : BitVec 32) : Reply := g.hostList gid 216 out cap dashboardGrInviteList

def hostDashboardAuditList (gid : BitVec 32) (since : BitVec 64) (out cap : BitVec 32) : Reply :=
  g.hostList gid 600 out cap fun reg => dashboardGrAuditList reg since

def hostDashboardAuditListForks (gid out cap : BitVec 32) : Reply :=
  g.hostList gid 1544 out cap dashboardGrAuditListForks

def hostDashboardBehaviorStalePeers (gid : BitVec 32) (staleMs : BitVec 64) (out cap : BitVec 32) : Reply :=
  g.hostList gid 32 out cap fun reg => dashboardGrBehaviorStalePeers reg staleMs

def fillInfo (total size outPtr outCap : BitVec 32) : Reply :=
  let toCopy := if outCap < total then outCap else total
  if outPtr = 0 ∨ toCopy = 0 then ⟨total, []⟩
  else if g.ipcMemCheck outPtr (toCopy * size) then
    ⟨total, .write outPtr.toNat (toCopy.toNat * size.toNat) :: records outPtr.toNat size.toNat toCopy.toNat⟩
  else ⟨-1, []⟩

def dashboardFillGroupInfo (outPtr outCap : BitVec 32) : Reply :=
  g.fillInfo (BitVec.ofNat 32 g.groups.length) 112 outPtr outCap

def hostDashboardListGroups (outPtr outCap : BitVec 32) : Reply := g.dashboardFillGroupInfo outPtr outCap

def dashboardCountWebappsInGroup (gi : BitVec 32) : BitVec 32 := BitVec.ofNat 32 (g.slots.count gi)

def dashboardFillWebappInfo (gi outPtr outCap : BitVec 32) : Reply :=
  if g.groups.length ≤ gi.toNat then ⟨-1, []⟩
  else g.fillInfo (g.dashboardCountWebappsInGroup gi) 104 outPtr outCap

def hostDashboardListWebapps (gid outPtr outCap : BitVec 32) : Reply :=
  let r := g.resolveGroupArg gid
  if r.1 ≠ 0xffffffff then
    let reply := g.dashboardFillWebappInfo r.1 outPtr outCap
    ⟨reply.value, r.2 ++ reply.accesses⟩
  else ⟨-1, r.2⟩

end Lists

section Network

/-- `NB_MAX_PAYLOAD` -/
def maxPayload : BitVec 32 := 1048576

def nbDeliver : BitVec 32 := if g.transport then 0 else -3

def fnNetSendRangeCommon (peersPtr peerCount dataPtr len : BitVec 32) : Reply :=
  if len = 0 ∨ maxPayload < len then ⟨-2, []⟩
  else if peerCount = 0 then ⟨0, []⟩
  else
    let peersBytes := peerCount.toNat * 32
    -- the quotient is the count, since the product is one of 64 bits
    if peersBytes / 32 ≠ peerCount.toNat then ⟨-2, []⟩
    else if g.ipcMemCheck peersPtr (BitVec.ofNat 32 peersBytes) ∧ g.ipcMemCheck dataPtr len then
      ⟨g.nbDeliver, [.handed peersPtr.toNat peersBytes, .handed dataPtr.toNat len.toNat]⟩
    else ⟨-1, []⟩

end Network

section Clipboard

/-- `CLIPBOARD_MAX_SIZE` -/
def clipboardMaxSize : BitVec 32 := 1048577

def clipboardRange (ptr len : BitVec 32) : Bool :=
  g.memory.isSome ∧ BitVec.slt 0 len ∧ BitVec.sle len clipboardMaxSize ∧ ptr.toNat + len.toNat ≤ g.memSize

def fnClipboardGet (outPtr maxLen : BitVec 32) : Reply :=
  if g.clipboardRange outPtr maxLen then
    if g.clipboardText = [] then ⟨0, [.write outPtr.toNat 1]⟩
    else
      let strlen := BitVec.ofNat 32 g.clipboardText.length
      let len := if maxLen.sle strlen then maxLen - 1 else strlen
      ⟨len, [.write outPtr.toNat (len.signExtend 64).toNat, .write (outPtr + len).toNat 1]⟩
  else ⟨0, []⟩

def fnClipboardSet (ptr len : BitVec 32) : Reply :=
  if g.clipboardRange ptr len ∧ g.clipboardLease then
    ⟨1, [.read ptr.toNat len.toNat, .staged clipboardMaxSize.toNat 0 len.toNat,
      .staged clipboardMaxSize.toNat len.toNat 1]⟩
  else ⟨0, []⟩

end Clipboard

section Glyphs

def copyBitmap (oip opp mb : BitVec 32) (size : BitVec 32 × BitVec 32) : Reply :=
  let rsz := size.1 * size.2 * 4
  if mb.slt rsz then ⟨0, []⟩ else ⟨rsz, [.write oip.toNat 24, .write opp.toNat rsz.toNat]⟩

def fnFontGetGlyphBitmap (h gid ps oip opp mb : BitVec 32) : Reply :=
  match g.fonts h with
  | none => ⟨0, []⟩
  | some font =>
    if g.memory.isSome ∧ BitVec.sle 0 mb ∧ oip.toNat + 24 ≤ g.memSize ∧ opp.toNat + mb.toNat ≤ g.memSize then
      match if BitVec.slt 0 ps then font.rasterize gid ps else font.bitmap gid with
      | none => ⟨0, [.write oip.toNat 24]⟩
      | some size => copyBitmap oip opp mb size
    else ⟨0, []⟩

end Glyphs

end Guest

inductive HostCall
  | listGroups (outPtr outCap : BitVec 32)
  | listWebapps (gid outPtr outCap : BitVec 32)
  | peerList (gid statusFilter out cap : BitVec 32)
  | roleList (gid out cap : BitVec 32)
  | groupWebappList (gid out cap : BitVec 32)
  | serverList (gid type out cap : BitVec 32)
  | inviteList (gid out cap : BitVec 32)
  | auditList (gid : BitVec 32) (since : BitVec 64) (out cap : BitVec 32)
  | auditListForks (gid out cap : BitVec 32)
  | behaviorStalePeers (gid : BitVec 32) (staleMs : BitVec 64) (out cap : BitVec 32)
  | netSendRange (peersPtr peerCount dataPtr len : BitVec 32)
  | netSendRangeUnreliable (peersPtr peerCount dataPtr len : BitVec 32)
  | clipboardGet (outPtr maxLen : BitVec 32)
  | clipboardSet (ptr len : BitVec 32)
  | fontGetGlyphBitmap (h gid ps oip opp mb : BitVec 32)

def Guest.hostCall (g : Guest) : HostCall → Reply
  | .listGroups outPtr outCap => g.hostDashboardListGroups outPtr outCap
  | .listWebapps gid outPtr outCap => g.hostDashboardListWebapps gid outPtr outCap
  | .peerList gid statusFilter out cap => g.hostDashboardPeerList gid statusFilter out cap
  | .roleList gid out cap => g.hostDashboardRoleList gid out cap
  | .groupWebappList gid out cap => g.hostDashboardGroupWebappList gid out cap
  | .serverList gid type out cap => g.hostDashboardServerList gid type out cap
  | .inviteList gid out cap => g.hostDashboardInviteList gid out cap
  | .auditList gid since out cap => g.hostDashboardAuditList gid since out cap
  | .auditListForks gid out cap => g.hostDashboardAuditListForks gid out cap
  | .behaviorStalePeers gid staleMs out cap => g.hostDashboardBehaviorStalePeers gid staleMs out cap
  | .netSendRange peersPtr peerCount dataPtr len => g.fnNetSendRangeCommon peersPtr peerCount dataPtr len
  | .netSendRangeUnreliable peersPtr peerCount dataPtr len => g.fnNetSendRangeCommon peersPtr peerCount dataPtr len
  | .clipboardGet outPtr maxLen => g.fnClipboardGet outPtr maxLen
  | .clipboardSet ptr len => g.fnClipboardSet ptr len
  | .fontGetGlyphBitmap h gid ps oip opp mb => g.fnFontGetGlyphBitmap h gid ps oip opp mb

end YumiBrowser.Dashboard

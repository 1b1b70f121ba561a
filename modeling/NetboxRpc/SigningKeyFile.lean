import NetboxRpc.HandleLog

/-!
# The signing-key reader

`_secure_read_signing_key_file` in `dispatch_lease.py` walks down to the key file one directory at
a time. Every system call may fail: an operating system is the list of their outcomes, by the
number of the call. A descriptor is named by the call that opened it, so that no two are alike.
-/

namespace NetboxRpc

structure Metadata where
  dev : ℕ
  ino : ℕ
  uid : ℕ
  mode : ℕ
  nlink : ℕ
  size : ℕ
  mtimeNs : ℕ
  ctimeNs : ℕ
  deriving DecidableEq

/-- A system call and what it gave. A failed `close` has released its descriptor; the other calls
are logged when they succeed. -/
inductive SysCall
  | opened (fd : ℕ) (dirFd : Option ℕ) (name : String)
  | inspectedDirectory (fd : ℕ) (m : Metadata)
  | looked (dirFd : ℕ) (name : String) (m : Metadata)
  | inspectedFile (fd : ℕ) (m : Metadata)
  | read (fd : ℕ) (chunk : List UInt8)
  | closed (fd : ℕ)

structure SysState where
  calls : ℕ
  log : List SysCall

def SysState.start : SysState := ⟨0, []⟩

def SysState.failed (st : SysState) : SysState := ⟨st.calls + 1, st.log⟩

def SysState.record (st : SysState) (call : SysCall) : SysState := ⟨st.calls + 1, st.log ++ [call]⟩

/-- Python's `os` module and the outcomes of its calls; `none` and `false` are an `OSError`. -/
structure Os where
  /-- The flags, functions and `dir_fd` support that the reader asks for are there. -/
  supported : Bool
  fsencode : String → Option (List UInt8)
  geteuid : ℕ
  opens : ℕ → Bool
  stats : ℕ → Option Metadata
  reads : ℕ → Option (List UInt8)
  closes : ℕ → Bool
  /-- `bytes.decode("utf-8")`. -/
  decode : List UInt8 → Option String

def maxSigningKeyFileBytes : ℕ := 16 * 1024

def maxSigningKeyPathBytes : ℕ := 4096

namespace Os

variable (os : Os)

/-! ## Trust -/

def metadataIsTrustedDirectory (m : Metadata) : Bool :=
  let writableByOthers := m.mode &&& 0o7777 &&& 0o022 != 0
  let rootSticky := m.uid == 0 && m.mode &&& 0o1000 != 0
  m.mode &&& 0o170000 == 0o040000 && (m.uid == 0 || m.uid == os.geteuid) &&
    (!writableByOthers || rootSticky)

def metadataIsTrustedKeyFile (m : Metadata) : Bool :=
  let mode := m.mode &&& 0o7777
  m.mode &&& 0o170000 == 0o100000 && (m.uid == 0 || m.uid == os.geteuid) && m.nlink == 1 &&
    mode &&& 0o440 != 0 && mode &&& 0o7137 == 0 &&
    decide (0 < m.size) && decide (m.size ≤ maxSigningKeyFileBytes)

def keyComponents (path : String) : Option (List String) :=
  if !os.supported || path.toList.head? != some '/' then none
  else match os.fsencode path with
    | none => none
    | some encoded =>
      if decide (maxSigningKeyPathBytes < encoded.length) ||
          path.toList.any (fun c => decide (c.toNat < 32) || c.toNat == 127) then none
      else
        let components := ((path.toList.splitOn '/').drop 1).map String.ofList
        if components.isEmpty || components.any (fun c => c ∈ ["", ".", ".."]) then none
        else some components

/-! ## Calls -/

def openAt (dirFd : Option ℕ) (name : String) (st : SysState) : Option ℕ × SysState :=
  if os.opens st.calls then (some st.calls, st.record (.opened st.calls dirFd name))
  else (none, st.failed)

def statWith (call : Metadata → SysCall) (st : SysState) : Option Metadata × SysState :=
  match os.stats st.calls with
  | some m => (some m, st.record (call m))
  | none => (none, st.failed)

def close (fd : ℕ) (st : SysState) : Bool × SysState :=
  (os.closes st.calls, st.record (.closed fd))

/-! ## The reader -/

/-- How the walk through the directories ends: whether it got through, and what `directory_fd`
then is. -/
structure Walk where
  passed : Bool
  directory : ℕ
  state : SysState

def walk : List String → ℕ → SysState → Walk
  | [], directory, st => ⟨true, directory, st⟩
  | component :: rest, directory, st =>
    match os.openAt (some directory) component st with
    | (none, st) => ⟨false, directory, st⟩
    | (some next, st) =>
      match os.statWith (.inspectedDirectory next) st with
      | (none, st) => ⟨false, directory, (os.close next st).2⟩
      | (some m, st) =>
        if os.metadataIsTrustedDirectory m then
          match os.close directory st with
          -- The exception leaves the loop before `directory_fd` is the next descriptor.
          | (false, st) => ⟨false, directory, st⟩
          | (true, st) => walk rest next st
        else ⟨false, directory, (os.close next st).2⟩

/-- The read loop. Every round but the last takes a byte, so `fuel` is enough when it is not less
than `remaining`. -/
def readMaterial (fd : ℕ) : ℕ → ℕ → List UInt8 → SysState → Option (List UInt8) × SysState
  | 0, _, material, st => (some material, st)
  | fuel + 1, remaining, material, st =>
    if remaining = 0 then (some material, st)
    else match os.reads st.calls with
      | none => (none, st.failed)
      | some bytes =>
        let chunk := bytes.take (min 4096 remaining)
        if chunk = [] then (some material, st.record (.read fd chunk))
        else readMaterial fd fuel (remaining - chunk.length) (material ++ chunk)
          (st.record (.read fd chunk))

def readOpened (fd : ℕ) (before : Metadata) (st : SysState) : Option String × SysState :=
  match os.statWith (.inspectedFile fd) st with
  | (none, st) => (none, st)
  | (some opened, st) =>
    if !os.metadataIsTrustedKeyFile opened || opened ≠ before then (none, st)
    else match os.readMaterial fd (maxSigningKeyFileBytes + 1) (maxSigningKeyFileBytes + 1) [] st with
      | (none, st) => (none, st)
      | (some material, st) =>
        match os.statWith (.inspectedFile fd) st with
        | (none, st) => (none, st)
        | (some after, st) =>
          if decide (maxSigningKeyFileBytes < material.length) || material.length ≠ opened.size ||
              !os.metadataIsTrustedKeyFile after || after ≠ opened then (none, st)
          else (os.decode material, st)

def readKeyFile (directory : ℕ) (filename : String) (st : SysState) :
    Option String × Option ℕ × SysState :=
  match os.statWith (.looked directory filename) st with
  | (none, st) => (none, none, st)
  | (some before, st) =>
    if !os.metadataIsTrustedKeyFile before then (none, none, st)
    else match os.openAt (some directory) filename st with
      | (none, st) => (none, none, st)
      | (some fd, st) =>
        let (result, st) := os.readOpened fd before st
        (result, some fd, st)

/-- `_secure_read_signing_key_file`, with the descriptors that its `finally` block closes. -/
def secureReadSigningKeyFile (path : String) : Option String × SysState :=
  match os.keyComponents path with
  | none => (none, .start)
  | some components =>
    match os.openAt none "/" .start with
    | (none, st) => (none, st)
    | (some root, st) =>
      match os.statWith (.inspectedDirectory root) st with
      | (none, st) => (none, (os.close root st).2)
      | (some m, st) =>
        if !os.metadataIsTrustedDirectory m then (none, (os.close root st).2)
        else
          let w := os.walk components.dropLast root st
          if !w.passed then (none, (os.close w.directory w.state).2)
          else match os.readKeyFile w.directory (components.getLastD "") w.state with
            | (result, none, st) => (result, (os.close w.directory st).2)
            | (result, some fd, st) => (result, (os.close w.directory (os.close fd st).2).2)

end Os

/-! ## Descriptors -/

def SysCall.handle? : SysCall → Option (HandleEvent ℕ)
  | .opened fd _ _ => some (.opened fd)
  | .closed fd => some (.closed fd)
  | _ => none

def SysState.handles (st : SysState) : List (HandleEvent ℕ) := st.log.filterMap SysCall.handle?

structure SysState.Owns (st : SysState) (held : List ℕ) : Prop where
  holds : HandleLog.Holds st.handles held
  earlier : ∀ fd ∈ HandleLog.opened st.handles, fd < st.calls

theorem SysState.owns_start : SysState.start.Owns [] :=
  ⟨HandleLog.holds_nil, fun _ hfd => nomatch hfd⟩

namespace SysState.Owns

variable {st : SysState} {held : List ℕ} {fd : ℕ}

theorem failed (h : st.Owns held) : st.failed.Owns held :=
  ⟨h.holds, fun fd hfd => Nat.lt_succ_of_lt (h.earlier fd hfd)⟩

theorem record (h : st.Owns held) {call : SysCall} (hcall : call.handle? = none) :
    (st.record call).Owns held := by
  have hhandles : (st.record call).handles = st.handles := by
    simp [handles, SysState.record, List.filterMap_append, hcall]
  refine ⟨hhandles ▸ h.holds, fun fd hfd => ?_⟩
  rw [hhandles] at hfd
  exact Nat.lt_succ_of_lt (h.earlier fd hfd)

theorem opened (h : st.Owns held) (dirFd : Option ℕ) (name : String) :
    (st.record (.opened st.calls dirFd name)).Owns (st.calls :: held) := by
  have hhandles : (st.record (.opened st.calls dirFd name)).handles =
      st.handles ++ [.opened st.calls] := by
    simp [handles, SysState.record, List.filterMap_append, SysCall.handle?]
  have hfresh : st.calls ∉ HandleLog.opened st.handles := fun hmem =>
    Nat.lt_irrefl _ (h.earlier st.calls hmem)
  refine ⟨hhandles ▸ h.holds.open hfresh, fun fd hfd => ?_⟩
  rw [hhandles, HandleLog.opened_append] at hfd
  rcases List.mem_append.mp hfd with hold | hnew
  · exact Nat.lt_succ_of_lt (h.earlier fd hold)
  · rw [List.mem_singleton.mp hnew]
    exact Nat.lt_succ_self st.calls

theorem closed (h : st.Owns (fd :: held)) : (st.record (.closed fd)).Owns held := by
  have hhandles : (st.record (.closed fd)).handles = st.handles ++ [.closed fd] := by
    simp [handles, SysState.record, List.filterMap_append, SysCall.handle?]
  refine ⟨hhandles ▸ h.holds.close, fun fd' hfd => ?_⟩
  have hopened : HandleLog.opened (st.handles ++ [.closed fd]) = HandleLog.opened st.handles := by
    rw [HandleLog.opened_append]
    exact List.append_nil _
  rw [hhandles, hopened] at hfd
  exact Nat.lt_succ_of_lt (h.earlier fd' hfd)

theorem perm {held' : List ℕ} (h : st.Owns held) (hperm : held.Perm held') : st.Owns held' :=
  ⟨h.holds.perm hperm, h.earlier⟩

theorem statWith (h : st.Owns held) (os : Os) (call : Metadata → SysCall)
    (hcall : ∀ m, (call m).handle? = none) : (os.statWith call st).2.Owns held := by
  unfold Os.statWith
  split
  · exact h.record (hcall _)
  · exact h.failed

end SysState.Owns

namespace Os

variable {os : Os}

/-- In the walk that starts with call number `call`, closing a directory fails after the next one
has been opened and trusted. -/
def handOverFails (os : Os) : ℕ → List String → Bool
  | _, [] => false
  | call, _ :: rest => os.opens call && (os.stats (call + 1)).any os.metadataIsTrustedDirectory &&
      (!os.closes (call + 2) || handOverFails os (call + 3) rest)

section Walk

variable {component : String} {rest : List String} {directory : ℕ} {st : SysState} {m : Metadata}

def inspectedNext (st : SysState) (directory : ℕ) (component : String) (m : Metadata) : SysState :=
  (st.record (.opened st.calls (some directory) component)).record (.inspectedDirectory st.calls m)

theorem walk_unopened (hopens : os.opens st.calls = false) :
    os.walk (component :: rest) directory st = ⟨false, directory, st.failed⟩ := by
  simp [walk, openAt, hopens]

theorem walk_uninspected (hopens : os.opens st.calls = true)
    (hstats : os.stats (st.calls + 1) = none) :
    os.walk (component :: rest) directory st =
      ⟨false, directory,
        (st.record (.opened st.calls (some directory) component)).failed.record (.closed st.calls)⟩ := by
  have hnext : os.stats (st.record (.opened st.calls (some directory) component)).calls = none := hstats
  simp [walk, openAt, hopens, statWith, hnext, close]

theorem walk_untrusted (hopens : os.opens st.calls = true)
    (hstats : os.stats (st.calls + 1) = some m) (htrusted : os.metadataIsTrustedDirectory m = false) :
    os.walk (component :: rest) directory st =
      ⟨false, directory, (inspectedNext st directory component m).record (.closed st.calls)⟩ := by
  have hnext : os.stats (st.record (.opened st.calls (some directory) component)).calls = some m := hstats
  simp [walk, openAt, hopens, statWith, hnext, htrusted, close, inspectedNext]

/-- The next directory is trusted: everything depends on closing the one before. -/
theorem walk_trusted (hopens : os.opens st.calls = true)
    (hstats : os.stats (st.calls + 1) = some m) (htrusted : os.metadataIsTrustedDirectory m = true) :
    os.walk (component :: rest) directory st =
      if os.closes (st.calls + 2) then
        os.walk rest st.calls ((inspectedNext st directory component m).record (.closed directory))
      else ⟨false, directory, (inspectedNext st directory component m).record (.closed directory)⟩ := by
  have hnext : os.stats (st.record (.opened st.calls (some directory) component)).calls = some m := hstats
  have hcall : (inspectedNext st directory component m).calls = st.calls + 2 := rfl
  simp only [walk, openAt, hopens, if_true, statWith, hnext, htrusted, close, ← inspectedNext.eq_1,
    hcall]
  cases os.closes (st.calls + 2) <;> rfl

end Walk

variable (os)

/-- The walk owns the directory it has reached. When a hand-over fails it owns the next directory
instead, and the one it would close has been closed. -/
theorem walk_owns (components : List String) {directory : ℕ} {st : SysState}
    (h : st.Owns [directory]) :
    if os.handOverFails st.calls components then
      (os.walk components directory st).passed = false ∧
        ∃ next, (os.walk components directory st).state.Owns [next] ∧
          (os.walk components directory st).directory ∈
            HandleLog.closed (os.walk components directory st).state.handles
    else (os.walk components directory st).state.Owns [(os.walk components directory st).directory] := by
  induction components generalizing directory st with
  | nil => simpa [handOverFails, walk] using h
  | cons component rest ih =>
    cases hopens : os.opens st.calls with
    | false =>
      rw [walk_unopened hopens]
      simpa [handOverFails, hopens] using h.failed
    | true =>
      have hopened := h.opened (some directory) component
      cases hstats : os.stats (st.calls + 1) with
      | none =>
        rw [walk_uninspected hopens hstats]
        simpa [handOverFails, hstats] using hopened.failed.closed
      | some m =>
        have hinspected : (inspectedNext st directory component m).Owns [st.calls, directory] :=
          hopened.record rfl
        cases htrusted : os.metadataIsTrustedDirectory m with
        | false =>
          rw [walk_untrusted hopens hstats htrusted]
          simpa [handOverFails, hstats, htrusted] using hinspected.closed
        | true =>
          -- The hand-over: the old directory is closed, whether or not the call raises.
          have hreleased := (hinspected.perm (List.Perm.swap directory st.calls [])).closed
          rw [walk_trusted hopens hstats htrusted]
          cases hcloses : os.closes (st.calls + 2) with
          | false =>
            have hclosed : directory ∈ HandleLog.closed
                ((inspectedNext st directory component m).record (.closed directory)).handles := by
              rw [SysState.handles, SysState.record, List.filterMap_append, HandleLog.closed_append]
              exact List.mem_append_right _ (List.mem_singleton_self directory)
            rw [if_pos (by simp [handOverFails, hopens, hstats, htrusted, hcloses])]
            exact ⟨rfl, st.calls, hreleased, hclosed⟩
          | true =>
            have hrest := ih hreleased
            have hcalls : ((inspectedNext st directory component m).record (.closed directory)).calls =
                st.calls + 3 := rfl
            simpa [handOverFails, hopens, hstats, htrusted, hcloses, hcalls] using hrest

theorem readMaterial_owns {held : List ℕ} (fd fuel remaining : ℕ) (material : List UInt8)
    {st : SysState} (h : st.Owns held) :
    (os.readMaterial fd fuel remaining material st).2.Owns held := by
  induction fuel generalizing remaining material st with
  | zero => exact h
  | succ fuel ih =>
    simp only [readMaterial]
    split_ifs with hdone
    · exact h
    cases os.reads st.calls with
    | none => exact h.failed
    | some bytes =>
      simp only
      split_ifs with hempty
      · exact h.record rfl
      · exact ih _ _ (h.record rfl)

theorem readOpened_owns {held : List ℕ} (fd : ℕ) (before : Metadata) {st : SysState}
    (h : st.Owns held) : (os.readOpened fd before st).2.Owns held := by
  have hfirst := h.statWith os (SysCall.inspectedFile fd) (fun _ => rfl)
  unfold readOpened
  revert hfirst
  cases hstat : os.statWith (SysCall.inspectedFile fd) st with
  | mk found st₁ =>
    intro hfirst
    cases found with
    | none => exact hfirst
    | some opened =>
      simp only
      split_ifs with hrefused
      · exact hfirst
      have hread := readMaterial_owns os fd (maxSigningKeyFileBytes + 1)
        (maxSigningKeyFileBytes + 1) [] hfirst
      revert hread
      cases hmaterial : os.readMaterial fd (maxSigningKeyFileBytes + 1)
        (maxSigningKeyFileBytes + 1) [] st₁ with
      | mk material st₂ =>
        intro hread
        cases material with
        | none => exact hread
        | some material =>
          have hlast := hread.statWith os (SysCall.inspectedFile fd) (fun _ => rfl)
          simp only
          revert hlast
          cases os.statWith (SysCall.inspectedFile fd) st₂ with
          | mk after st₃ =>
            intro hlast
            cases after with
            | none => exact hlast
            | some after =>
              simp only
              split_ifs
              · exact hlast
              · exact hlast

/-- The key file's descriptor is open afterwards if it was opened. -/
theorem readKeyFile_owns {held : List ℕ} (directory : ℕ) (filename : String) {st : SysState}
    (h : st.Owns held) :
    (os.readKeyFile directory filename st).2.2.Owns
      ((os.readKeyFile directory filename st).2.1.toList ++ held) := by
  have hlooked := h.statWith os (SysCall.looked directory filename) (fun _ => rfl)
  unfold readKeyFile
  revert hlooked
  cases os.statWith (SysCall.looked directory filename) st with
  | mk found st₁ =>
    intro hlooked
    cases found with
    | none => exact hlooked
    | some before =>
      simp only
      split_ifs with hrefused
      · exact hlooked
      rw [openAt]
      cases os.opens st₁.calls with
      | false => exact hlooked.failed
      | true => exact readOpened_owns os st₁.calls before (hlooked.opened (some directory) filename)

/-! ## What a returned key has gone through -/

/-- The calls of a walk down trusted directories: each one is opened by its name in the one before
it and inspected, and then the one before is closed. -/
inductive TrustedWalk : ℕ → List String → List SysCall → ℕ → Prop
  | here (directory : ℕ) : TrustedWalk directory [] [] directory
  | down {directory next last : ℕ} {component : String} {rest : List String} {m : Metadata}
      {log : List SysCall} (htrusted : os.metadataIsTrustedDirectory m = true)
      (hrest : TrustedWalk next rest log last) :
      TrustedWalk directory (component :: rest)
        (.opened next (some directory) component :: .inspectedDirectory next m ::
          .closed directory :: log) last

/-- A walk that got through went down trusted directories. -/
theorem walk_passed (components : List String) {directory : ℕ} {st : SysState}
    (hpassed : (os.walk components directory st).passed = true) :
    ∃ walked, (os.walk components directory st).state.log = st.log ++ walked ∧
      os.TrustedWalk directory components walked (os.walk components directory st).directory := by
  induction components generalizing directory st with
  | nil => exact ⟨[], by simp [walk], .here directory⟩
  | cons component rest ih =>
    cases hopens : os.opens st.calls with
    | false =>
      rw [walk_unopened hopens] at hpassed
      cases hpassed
    | true =>
      cases hstats : os.stats (st.calls + 1) with
      | none =>
        rw [walk_uninspected hopens hstats] at hpassed
        cases hpassed
      | some m =>
        cases htrusted : os.metadataIsTrustedDirectory m with
        | false =>
          rw [walk_untrusted hopens hstats htrusted] at hpassed
          cases hpassed
        | true =>
          rw [walk_trusted hopens hstats htrusted] at hpassed ⊢
          cases hcloses : os.closes (st.calls + 2) with
          | false =>
            rw [hcloses] at hpassed
            cases hpassed
          | true =>
            rw [hcloses, if_pos rfl] at hpassed
            rw [if_pos rfl]
            obtain ⟨walked, hlog, hwalked⟩ := ih hpassed
            refine ⟨_, ?_, .down htrusted hwalked⟩
            rw [hlog]
            simp [inspectedNext, SysState.record]

theorem readMaterial_log {fd fuel remaining : ℕ} {material material' : List UInt8}
    {st st' : SysState}
    (h : os.readMaterial fd fuel remaining material st = (some material', st')) :
    ∃ chunks : List (List UInt8), st'.log = st.log ++ chunks.map (.read fd) := by
  induction fuel generalizing remaining material st with
  | zero =>
    cases h
    exact ⟨[], by simp⟩
  | succ fuel ih =>
    simp only [readMaterial] at h
    split_ifs at h with hdone
    · cases h
      exact ⟨[], by simp⟩
    cases hreads : os.reads st.calls with
    | none =>
      rw [hreads] at h
      cases h
    | some bytes =>
      rw [hreads] at h
      simp only at h
      split_ifs at h with hempty
      · cases h
        exact ⟨[_], rfl⟩
      · obtain ⟨chunks, hlog⟩ := ih h
        refine ⟨bytes.take (min 4096 remaining) :: chunks, ?_⟩
        rw [hlog]
        simp [SysState.record]

theorem statWith_some {call : Metadata → SysCall} {st st' : SysState} {m : Metadata}
    (h : os.statWith call st = (some m, st')) : st' = st.record (call m) := by
  unfold statWith at h
  cases hstats : os.stats st.calls with
  | none =>
    rw [hstats] at h
    cases h
  | some found =>
    rw [hstats] at h
    cases h
    rfl

/-- A key is returned only between two inspections that agree with the one before opening. -/
theorem readOpened_some {fd : ℕ} {before : Metadata} {st st' : SysState} {text : String}
    (h : os.readOpened fd before st = (some text, st')) :
    ∃ chunks : List (List UInt8), st'.log = st.log ++ .inspectedFile fd before ::
      chunks.map (.read fd) ++ [.inspectedFile fd before] := by
  unfold readOpened at h
  cases hfirst : os.statWith (SysCall.inspectedFile fd) st with
  | mk found st₁ =>
    rw [hfirst] at h
    cases found with
    | none => cases h
    | some opened =>
      simp only at h
      split_ifs at h with hrefused
      · cases h
      have hbefore : opened = before := by
        by_contra hne
        exact hrefused (by simp [hne])
      cases hmaterial : os.readMaterial fd (maxSigningKeyFileBytes + 1)
        (maxSigningKeyFileBytes + 1) [] st₁ with
      | mk material st₂ =>
        rw [hmaterial] at h
        cases material with
        | none => cases h
        | some material =>
          obtain ⟨chunks, hlog⟩ := readMaterial_log os hmaterial
          simp only at h
          cases hlast : os.statWith (SysCall.inspectedFile fd) st₂ with
          | mk after st₃ =>
            rw [hlast] at h
            cases after with
            | none => cases h
            | some after =>
              simp only at h
              split_ifs at h with hchanged
              · cases h
              have hafter : after = opened := by
                by_contra hne
                exact hchanged (by simp [hne])
              have hst : st₃ = st' := congrArg Prod.snd h
              refine ⟨chunks, ?_⟩
              rw [← hst, statWith_some os hlast, SysState.record, hlog, statWith_some os hfirst,
                SysState.record, hafter, hbefore]
              simp

theorem readKeyFile_some {directory : ℕ} {filename : String} {st st' : SysState} {text : String}
    {file : Option ℕ} (h : os.readKeyFile directory filename st = (some text, file, st')) :
    ∃ fd m, ∃ chunks : List (List UInt8), file = some fd ∧
      os.metadataIsTrustedKeyFile m = true ∧
      st'.log = st.log ++ [.looked directory filename m, .opened fd (some directory) filename,
        .inspectedFile fd m] ++ chunks.map (.read fd) ++ [.inspectedFile fd m] := by
  unfold readKeyFile at h
  cases hlooked : os.statWith (SysCall.looked directory filename) st with
  | mk found st₁ =>
    rw [hlooked] at h
    cases found with
    | none => cases h
    | some before =>
      simp only at h
      split_ifs at h with hrefused
      · cases h
      rw [openAt] at h
      cases hopens : os.opens st₁.calls with
      | false =>
        rw [hopens] at h
        cases h
      | true =>
        rw [hopens] at h
        simp only [if_true, Prod.mk.injEq] at h
        obtain ⟨htext, hfile, hst⟩ := h
        obtain ⟨chunks, hlog⟩ := readOpened_some os (Prod.ext htext hst)
        refine ⟨st₁.calls, before, chunks, hfile.symm, by simpa using hrefused, ?_⟩
        rw [hlog, SysState.record, statWith_some os hlooked, SysState.record]
        simp

theorem keyComponents_ne_nil {path : String} {components : List String}
    (h : os.keyComponents path = some components) : components ≠ [] := by
  rintro rfl
  unfold keyComponents at h
  split_ifs at h with hpath
  cases hencode : os.fsencode path with
  | none =>
    rw [hencode] at h
    cases h
  | some encoded =>
    rw [hencode] at h
    dsimp only at h
    split_ifs at h with hlong hbad
    rw [Option.some.inj h] at hbad
    exact hbad rfl

/-- Every directory of the path was trusted, from the root down to the one that holds the key file,
and the file's metadata was the same before it was opened, after it was opened and after the last
read. -/
def ReadTrusted (path : String) (log : List SysCall) : Prop :=
  ∃ components filename root rootMetadata walked directory fd m, ∃ chunks : List (List UInt8),
    os.keyComponents path = some (components ++ [filename]) ∧
    os.metadataIsTrustedDirectory rootMetadata = true ∧
    os.TrustedWalk root components walked directory ∧ os.metadataIsTrustedKeyFile m = true ∧
    log = [.opened root none "/", .inspectedDirectory root rootMetadata] ++ walked ++
      [.looked directory filename m, .opened fd (some directory) filename, .inspectedFile fd m] ++
      chunks.map (.read fd) ++ [.inspectedFile fd m, .closed fd, .closed directory]

def HandOverFails (path : String) : Prop :=
  ∃ components, os.keyComponents path = some components ∧ os.opens 0 = true ∧
    (os.stats 1).any os.metadataIsTrustedDirectory = true ∧
    os.handOverFails 2 components.dropLast = true

section Reader

variable {path : String} {components : List String} {m : Metadata}

def atRoot (m : Metadata) : SysState := ⟨2, [.opened 0 none "/", .inspectedDirectory 0 m]⟩

theorem atRoot_owns (m : Metadata) : (atRoot m).Owns [0] :=
  (SysState.owns_start.opened none "/").record rfl

theorem secureRead_eq (hpath : os.keyComponents path = some components) (hopens : os.opens 0 = true)
    (hstats : os.stats 1 = some m) (htrusted : os.metadataIsTrustedDirectory m = true) :
    os.secureReadSigningKeyFile path =
      let w := os.walk components.dropLast 0 (atRoot m)
      if !w.passed then (none, (os.close w.directory w.state).2)
      else match os.readKeyFile w.directory (components.getLastD "") w.state with
        | (result, none, st) => (result, (os.close w.directory st).2)
        | (result, some fd, st) => (result, (os.close w.directory (os.close fd st).2).2) := by
  have hroot : os.openAt none "/" .start = (some 0, SysState.start.record (.opened 0 none "/")) := by
    rw [openAt, show SysState.start.calls = 0 from rfl, hopens]
    rfl
  have hinspect : os.statWith (.inspectedDirectory 0) (SysState.start.record (.opened 0 none "/")) =
      (some m, atRoot m) := by
    rw [statWith, show (SysState.start.record (.opened 0 none "/")).calls = 1 from rfl, hstats]
    rfl
  simp only [secureReadSigningKeyFile, hpath, hroot, hinspect, htrusted, Bool.not_true,
    Bool.false_eq_true, if_false]

/-- Before the walk the reader has stopped without a key and with every descriptor closed, or the
root directory is trusted. -/
theorem secureRead_cases (path : String) :
    ((os.secureReadSigningKeyFile path).1 = none ∧ (os.secureReadSigningKeyFile path).2.Owns []) ∨
      ∃ components m, os.keyComponents path = some components ∧ os.opens 0 = true ∧
        os.stats 1 = some m ∧ os.metadataIsTrustedDirectory m = true := by
  cases hpath : os.keyComponents path with
  | none =>
    simp only [secureReadSigningKeyFile, hpath]
    exact .inl ⟨trivial, SysState.owns_start⟩
  | some components =>
    cases hopens : os.opens 0 with
    | false =>
      simp only [secureReadSigningKeyFile, hpath, openAt, show SysState.start.calls = 0 from rfl,
        hopens]
      exact .inl ⟨rfl, SysState.owns_start.failed⟩
    | true =>
      cases hstats : os.stats 1 with
      | none =>
        simp only [secureReadSigningKeyFile, hpath, openAt, show SysState.start.calls = 0 from rfl,
          hopens, if_true, statWith, show (SysState.start.record (.opened 0 none "/")).calls = 1 from rfl,
          hstats]
        exact .inl ⟨trivial, (SysState.owns_start.opened none "/").failed.closed⟩
      | some m =>
        cases htrusted : os.metadataIsTrustedDirectory m with
        | false =>
          simp only [secureReadSigningKeyFile, hpath, openAt,
            show SysState.start.calls = 0 from rfl, hopens, if_true, statWith,
            show (SysState.start.record (.opened 0 none "/")).calls = 1 from rfl, hstats, htrusted]
          exact .inl ⟨rfl, (atRoot_owns m).closed⟩
        | true => exact .inr ⟨components, m, rfl, rfl, rfl, htrusted⟩

/-- Without a failed hand-over every descriptor is closed once. -/
theorem secureRead_closedOnce (h : ¬ os.HandOverFails path) :
    HandleLog.ClosedOnce (os.secureReadSigningKeyFile path).2.handles := by
  rcases secureRead_cases os path with ⟨-, hstopped⟩ | ⟨components, m, hpath, hopens, hstats, htrusted⟩
  · exact hstopped.holds.closedOnce
  have hwalk := walk_owns os components.dropLast (atRoot_owns m)
  rw [show (atRoot m).calls = 2 from rfl, if_neg (fun hfails =>
    h ⟨components, hpath, hopens, by simp [hstats, htrusted], hfails⟩)] at hwalk
  rw [secureRead_eq os hpath hopens hstats htrusted]
  simp only
  split_ifs with hpassed
  · exact hwalk.closed.holds.closedOnce
  · have hfile := readKeyFile_owns os (os.walk components.dropLast 0 (atRoot m)).directory
      (components.getLastD "") hwalk
    revert hfile
    rcases os.readKeyFile (os.walk components.dropLast 0 (atRoot m)).directory
      (components.getLastD "") (os.walk components.dropLast 0 (atRoot m)).state with
      ⟨result, _ | fd, st⟩
    · intro hfile
      exact hfile.closed.holds.closedOnce
    · intro hfile
      exact hfile.closed.closed.holds.closedOnce

/-- A failed hand-over closes the old directory twice. -/
theorem secureRead_closedTwice (h : os.HandOverFails path) :
    ¬ HandleLog.ClosedOnce (os.secureReadSigningKeyFile path).2.handles := by
  obtain ⟨components, hpath, hopens, hroot, hfails⟩ := h
  obtain ⟨m, hstats, htrusted⟩ := (Option.any_eq_true _ _).mp hroot
  have hwalk := walk_owns os components.dropLast (atRoot_owns m)
  rw [show (atRoot m).calls = 2 from rfl, if_pos hfails] at hwalk
  obtain ⟨hstopped, next, howns, hclosed⟩ := hwalk
  rw [secureRead_eq os hpath hopens hstats htrusted]
  simp only [hstopped, Bool.not_false, if_true, close, SysState.handles, SysState.record,
    List.filterMap_append]
  exact HandleLog.not_closedOnce_of_closed (howns.holds.mem_opened hclosed) hclosed

theorem secureRead_trusted {text : String} (h : (os.secureReadSigningKeyFile path).1 = some text) :
    os.ReadTrusted path (os.secureReadSigningKeyFile path).2.log := by
  rcases secureRead_cases os path with ⟨hnone, -⟩ | ⟨components, m, hpath, hopens, hstats, htrusted⟩
  · rw [hnone] at h
    cases h
  rw [secureRead_eq os hpath hopens hstats htrusted] at h ⊢
  simp only at h ⊢
  cases hpassed : (os.walk components.dropLast 0 (atRoot m)).passed with
  | false =>
    rw [hpassed] at h
    cases h
  | true =>
    obtain ⟨walked, hlog, hwalked⟩ := walk_passed os components.dropLast hpassed
    rw [hpassed] at h
    simp only [Bool.not_true, Bool.false_eq_true, if_false] at h ⊢
    cases hread : os.readKeyFile (os.walk components.dropLast 0 (atRoot m)).directory
      (components.getLastD "") (os.walk components.dropLast 0 (atRoot m)).state with
    | mk result rest =>
      obtain ⟨file, st⟩ := rest
      rw [hread] at h
      have hresult : result = some text := by
        cases file with
        | none => exact h
        | some fd => exact h
      subst hresult
      obtain ⟨fd, m', chunks, rfl, hkey, hfile⟩ := readKeyFile_some os hread
      have hcomponents : components.dropLast ++ [components.getLastD ""] = components := by
        rw [List.getLastD_eq_getLast?, List.getLast?_eq_some_getLast (keyComponents_ne_nil os hpath)]
        exact List.dropLast_append_getLast _
      refine ⟨components.dropLast, components.getLastD "", 0, m, walked, _, fd, m', chunks,
        by rw [hcomponents]; exact hpath, htrusted, hwalked, hkey, ?_⟩
      simp only [close, SysState.record, hfile, hlog]
      simp [atRoot]

end Reader

end Os

open Os in
/-- The reader closes every descriptor exactly once and returns only a key that was trusted all the
way, exactly when no directory is closed with an error while the next one is taken over. -/
theorem key_descriptors_closed_iff (os : Os) (path : String) :
    (HandleLog.ClosedOnce (os.secureReadSigningKeyFile path).2.handles ∧
      ∀ text, (os.secureReadSigningKeyFile path).1 = some text →
        os.ReadTrusted path (os.secureReadSigningKeyFile path).2.log) ↔ ¬ os.HandOverFails path := by
  constructor
  · rintro ⟨honce, -⟩ hfails
    exact secureRead_closedTwice os hfails honce
  · intro hfails
    exact ⟨secureRead_closedOnce os hfails, fun text htext => secureRead_trusted os htext⟩

def readableKey : Os where
  supported := true
  fsencode := fun path => some (path.toList.map fun c => c.toNat.toUInt8)
  geteuid := 0
  opens := fun _ => true
  stats := fun call => if call ∈ [1, 3, 6] then some ⟨0, call, 0, 0o040755, 2, 0, 0, 0⟩
    else some ⟨0, 8, 0, 0o100640, 1, 3, 0, 0⟩
  reads := fun call => some (if call = 11 then [107, 101, 121] else [])
  closes := fun _ => true
  decode := fun material => some (String.ofList (material.map fun b => Char.ofNat b.toNat))

theorem key_descriptors_closed_iff_two_directories :
    (readableKey.secureReadSigningKeyFile "/a/b/key").1 = some "key" ∧
      HandleLog.ClosedOnce (readableKey.secureReadSigningKeyFile "/a/b/key").2.handles ∧
      readableKey.ReadTrusted "/a/b/key"
        (readableKey.secureReadSigningKeyFile "/a/b/key").2.log := by
  have hkey : (readableKey.secureReadSigningKeyFile "/a/b/key").1 = some "key" := by
    decide +kernel
  have hkept : ¬ readableKey.HandOverFails "/a/b/key" := by
    rintro ⟨components, hpath, -, -, hfails⟩
    have hcomponents : readableKey.keyComponents "/a/b/key" = some ["a", "b", "key"] := by
      decide +kernel
    rw [hcomponents, Option.some.injEq] at hpath
    subst hpath
    exact absurd hfails (by decide)
  have hread := (key_descriptors_closed_iff readableKey "/a/b/key").mpr hkept
  exact ⟨hkey, hread.1, hread.2 "key" hkey⟩

def failingHandOver : Os := { readableKey with closes := fun call => call != 4 }

/-- Reading `/a/b`, the root directory is closed twice and the descriptor of `/a` stays open. -/
theorem handover_leaks_descriptor :
    HandleLog.opened (failingHandOver.secureReadSigningKeyFile "/a/b").2.handles = [0, 2] ∧
      HandleLog.closed (failingHandOver.secureReadSigningKeyFile "/a/b").2.handles = [0, 0] := by
  decide +kernel

end NetboxRpc

import GraphedCore.Execution
import GraphedCore.Lib.Recency

/-!
# The handles of a worker

A worker keeps the handles of the uris it asked for last. A request for a cached uri moves
it to the end; any other opens a handle, and the oldest entries are dropped and closed
until the bound holds. Every handle that was ever opened is either cached or was given up
once, so if openers return fresh handles, none is closed twice or while it is cached.
-/

namespace GraphedCore.Execution

variable {S E H R : Type}

/-- The handle that a call says was opened. An opener that raised opened none. -/
def Call.opened? : Call H R → Option H
  | .opened _ handle => some handle
  | _ => none

/-- The handle that a call closes, whether or not its `close` raises. -/
def Call.closed? : Call H R → Option H
  | .close handle => some handle
  | _ => none

/-- A request to the resources of a worker: a file, or the closing of
everything. -/
inductive Request (S E H : Type) where
  | openOnce (uri : String) (opener : String → Action S E H)
  | close

/-- What came of a request: a handle, what the opener raised, or a close. -/
inductive Served (E H : Type) where
  | returned (uri : String) (handle : H)
  | raised (uri : String) (e : E)
  | closed

/-- The uris of the requests since the last close that returned a handle. A
request that raised does not count as a use. -/
def requested (served : List (Served E H)) : List String :=
  served.foldl (fun uris outcome => match outcome with
    | .returned uri _ => uris ++ [uri]
    | .raised _ _ => uris
    | .closed => []) []

namespace World

/-- The handles that openers returned, in the order of their opening. -/
def opened (world : World S H R) : List H := world.calls.filterMap Call.opened?

/-- The handles whose `close` was called, in the order of the calls. -/
def closed (world : World S H R) : List H := world.calls.filterMap Call.closed?

/-- The files with open handles, least recently used first. -/
def cachedUris (world : World S H R) : List String := world.resources.handles.entries.map Prod.fst

/-- The open handles, least recently used first, as closing goes through them. -/
def cached (world : World S H R) : List H := world.resources.handles.entries.map Prod.snd

/-- New resources, with nothing open and the given bound. -/
def fresh (user : S) (maxOpen : Nat) : World S H R :=
  { user := user, resources := { maxOpen := maxOpen }, calls := [] }

/-- One request for a file, or the closing of all. A raised error is an answer and
leaves the cache usable. -/
def serve (host : Host S E H) (request : Request S E H) (world : World S H R) :
    Served E H × World S H R :=
  match request with
  | .openOnce uri opener =>
    match openOnce host uri opener world with
    | (.ok handle, world) => (.returned uri handle, world)
    | (.error e, world) => (.raised uri e, world)
  | .close => (.closed, closeAll host world)

/-- Serve requests one after another, and collect what came of them. -/
def serveAll (host : Host S E H) (requests : List (Request S E H)) (world : World S H R) :
    List (Served E H) × World S H R :=
  requests.foldl (fun state request =>
    (state.1 ++ [(serve host request state.2).1], (serve host request state.2).2)) ([], world)

/-! ## Giving up handles -/

variable {host : Host S E H} {world : World S H R}

/-- The handles that have something to close. For the others nothing is called. -/
def closable (host : Host S E H) (handles : List H) : List H :=
  handles.filter (fun handle => (host.close handle).isSome)

/-- The handles that can be closed, list by list. -/
theorem closable_append (host : Host S E H) (first second : List H) :
    closable host (first ++ second) = closable host first ++ closable host second :=
  List.filter_append ..

/-- Closing a handle notes it as closed when it can be, and touches nothing
else. -/
theorem closeHandle_cases (host : Host S E H) (handle : H) (world : World S H R) :
    (closeHandle host handle world).resources = world.resources ∧
      (closeHandle host handle world).opened = world.opened ∧
      (closeHandle host handle world).closed = world.closed ++ closable host [handle] := by
  rw [closeHandle]
  cases known : host.close handle with
  | none => simp [closable, known]
  | some close => simp [closable, known, act, log, opened, closed, Call.opened?, Call.closed?]

/-- Evicting drops entries from the front and closes their handles. The bound and
the count stay. -/
theorem evict_cases (host : Host S E H) (n : Nat) (world : World S H R) :
    (evict host n world).resources.handles.entries = world.resources.handles.entries.drop n ∧
      (evict host n world).resources.maxOpen = world.resources.maxOpen ∧
      (evict host n world).resources.openCount = world.resources.openCount ∧
      (evict host n world).opened = world.opened ∧
      (evict host n world).closed = world.closed ++ closable host (world.cached.take n) := by
  induction n generalizing world with
  | zero => simp [evict, closable]
  | succ n ih =>
    rw [evict]
    cases shape : world.resources.handles.entries with
    | nil =>
      rw [OrderedDict.popFirst_nil shape]
      simp [shape, cached, closable]
    | cons entry rest =>
      obtain ⟨others, popped, left⟩ := OrderedDict.popFirst_cons shape
      rw [popped]
      obtain ⟨resources, opened, closed⟩ := closeHandle_cases host entry.2
        { world with resources := { world.resources with handles := others } }
      obtain ⟨entries, maxOpen, openCount, opened', closed'⟩ := ih (closeHandle host entry.2
        { world with resources := { world.resources with handles := others } })
      rw [resources] at entries maxOpen openCount
      refine ⟨?_, maxOpen, openCount, opened'.trans opened, ?_⟩
      · rw [entries, left, List.drop_succ_cons]
      · rw [closed', closed, cached, cached, resources, left, shape, List.append_assoc,
          ← closable_append]
        rfl

/-- Closing several handles, one after another. What closing raises stops none of
the others. -/
theorem closeHandles_cases (host : Host S E H) (handles : List H) (world : World S H R) :
    (handles.foldl (fun world handle => closeHandle host handle world) world).resources =
        world.resources ∧
      (handles.foldl (fun world handle => closeHandle host handle world) world).opened =
        world.opened ∧
      (handles.foldl (fun world handle => closeHandle host handle world) world).closed =
        world.closed ++ closable host handles := by
  induction handles generalizing world with
  | nil => simp [closable]
  | cons handle rest ih =>
    obtain ⟨resources, opened, closed⟩ := closeHandle_cases host handle world
    obtain ⟨resources', opened', closed'⟩ := ih (closeHandle host handle world)
    refine ⟨resources'.trans resources, opened'.trans opened, ?_⟩
    rw [List.foldl_cons, closed', closed, List.append_assoc, ← closable_append]
    rfl

/-- Closing gives up every cached handle, and each that can be closed is. -/
theorem closeAll_cases (host : Host S E H) (world : World S H R) :
    (closeAll host world).resources = { world.resources with handles := .empty } ∧
      (closeAll host world).opened = world.opened ∧
      (closeAll host world).closed = world.closed ++ closable host world.cached := by
  obtain ⟨resources, opened, closed⟩ := closeHandles_cases host world.cached world
  refine ⟨?_, opened, closed⟩
  rw [closeAll]
  exact congrArg (fun held : LocalResources H => { held with handles := .empty }) resources

/-! ## Requests -/

/-- A request for a cached uri moves it to the end. Any other runs its opener: it
raises and nothing changes, or it returns and the oldest entries are given up
until the bound holds. -/
theorem openOnce_cases (host : Host S E H) (uri : String) (opener : String → Action S E H)
    (world : World S H R) :
    let after := (openOnce host uri opener world).2
    (∃ handle, (openOnce host uri opener world).1 = .ok handle ∧
        world.resources.handles.get? uri = some handle ∧
        after.resources =
          { world.resources with handles := world.resources.handles.put uri handle } ∧
        after.opened = world.opened ∧ after.closed = world.closed) ∨
      (∃ e, (openOnce host uri opener world).1 = .error e ∧
        after.resources = world.resources ∧
        after.opened = world.opened ∧ after.closed = world.closed) ∨
      (∃ handle, (openOnce host uri opener world).1 = .ok handle ∧
        world.resources.handles.get? uri = none ∧
        after.resources.handles.entries =
          (world.resources.handles.put uri handle).entries.rtake world.resources.maxOpen ∧
        after.resources.maxOpen = world.resources.maxOpen ∧
        after.resources.openCount = world.resources.openCount + 1 ∧
        after.opened = world.opened ++ [handle] ∧
        after.closed = world.closed ++ closable host
          (((world.resources.handles.put uri handle).entries.rdrop
            world.resources.maxOpen).map Prod.snd)) := by
  dsimp only
  rw [openOnce]
  dsimp only
  cases found : (world.log (.openOnce uri)).resources.handles.get? uri with
  | some handle =>
    exact Or.inl ⟨handle, rfl, found, rfl, by simp [opened, log, Call.opened?],
      by simp [closed, log, Call.closed?]⟩
  | none =>
    refine Or.inr ?_
    cases ran : (world.log (.openOnce uri)).act (opener uri) with
    | mk outcome acted =>
      have resources : acted.resources = world.resources :=
        (congrArg (fun result => result.2.resources) ran).symm
      have calls : acted.calls = world.calls ++ [.openOnce uri] :=
        (congrArg (fun result => result.2.calls) ran).symm
      cases outcome with
      | error e =>
        exact Or.inl ⟨e, rfl, resources, by simp [opened, calls, Call.opened?],
          by simp [closed, calls, Call.closed?]⟩
      | ok handle =>
        obtain ⟨entries, maxOpen, openCount, opened, closed⟩ := evict_cases host
          ((acted.resources.handles.put uri handle).entries.length - acted.resources.maxOpen)
          { acted.log (.opened uri handle) with resources :=
            { acted.resources with
              handles := acted.resources.handles.put uri handle
              openCount := acted.resources.openCount + 1 } }
        refine Or.inr ⟨handle, rfl, found, entries.trans ?_, maxOpen.trans ?_,
          openCount.trans ?_, opened.trans ?_, closed.trans ?_⟩
        · rw [resources, List.rtake]
        · exact congrArg (fun held => held.maxOpen) resources
        · exact congrArg (fun held => held.openCount + 1) resources
        · simp only [World.opened, log, calls, List.filterMap_append, List.append_assoc]
          rfl
        · simp only [World.closed, cached, ← List.map_take, resources, List.rdrop, log, calls,
            List.filterMap_append, List.append_assoc]
          rfl

/-! ## Runs -/

/-- What holds of a worker that served requests: the cache is the most recent
uris, and a handle that was opened is cached or was closed. -/
structure Tidy (host : Host S E H) (maxOpen : Nat) (served : List (Served E H))
    (world : World S H R) : Prop where
  bound : world.resources.maxOpen = maxOpen
  recent : world.cachedUris = Recency.recent maxOpen (requested served)
  count : world.resources.openCount = world.opened.length
  given : ∃ dropped, world.opened.Perm (dropped ++ world.cached) ∧
    world.closed = closable host dropped

/-- The files that were asked for since the last closing, after one more
outcome. -/
theorem requested_concat (served : List (Served E H)) (outcome : Served E H) :
    requested (served ++ [outcome]) = match outcome with
      | .returned uri _ => requested served ++ [uri]
      | .raised _ _ => requested served
      | .closed => [] := by
  rw [requested, List.foldl_append]
  rfl

/-- Nothing is open at the start, and nothing was asked for. -/
theorem tidy_fresh (host : Host S E H) (user : S) (maxOpen : Nat) :
    Tidy host maxOpen [] (fresh user maxOpen : World S H R) :=
  ⟨rfl, (Recency.recent_nil maxOpen).symm, rfl, [], List.Perm.nil, rfl⟩

/-- A file that is opened is answered with its handle. -/
theorem serve_returned {uri : String} {opener : String → Action S E H} {handle : H}
    (result : (openOnce host uri opener world).1 = .ok handle) :
    serve host (.openOnce uri opener) world =
      (.returned uri handle, (openOnce host uri opener world).2) := by
  rw [serve]
  split
  · next handle' after ran =>
    rw [ran] at result
    rw [ran, Except.ok.inj result]
  · next e after ran =>
    rw [ran] at result
    cases result

/-- A file whose opener raises is answered with what it raised. -/
theorem serve_raised {uri : String} {opener : String → Action S E H} {e : E}
    (result : (openOnce host uri opener world).1 = .error e) :
    serve host (.openOnce uri opener) world =
      (.raised uri e, (openOnce host uri opener world).2) := by
  rw [serve]
  split
  · next handle after ran =>
    rw [ran] at result
    cases result
  · next e' after ran =>
    rw [ran] at result
    rw [ran, Except.error.inj result]

/-- A request for a file keeps the books: what is open are the files asked for
last, no more than allowed, and what was dropped is closed. -/
theorem Tidy.openOnce {maxOpen : Nat} {served : List (Served E H)}
    (tidy : Tidy host maxOpen served world) (positive : 1 ≤ maxOpen) (uri : String)
    (opener : String → Action S E H) :
    Tidy host maxOpen (served ++ [(serve host (.openOnce uri opener) world).1])
      (serve host (.openOnce uri opener) world).2 := by
  obtain ⟨dropped, perm, closed⟩ := tidy.given
  rcases openOnce_cases host uri opener world with
    ⟨handle, result, found, resources, opened, closed'⟩ |
    ⟨e, result, resources, opened, closed'⟩ |
    ⟨handle, result, absent, entries, bound, count, opened, closed'⟩
  · rw [serve_returned result]
    have moved := OrderedDict.put_perm found
    have few : (world.resources.handles.put uri handle).entries.length ≤ maxOpen := by
      have length := congrArg List.length tidy.recent
      rw [cachedUris, List.length_map] at length
      rw [moved.length_eq, length]
      exact Recency.recent_length _ _
    refine ⟨?_, ?_, ?_, dropped, ?_, ?_⟩
    · rw [resources]
      exact tidy.bound
    · rw [requested_concat, Recency.recent_concat positive, ← tidy.recent, cachedUris, resources,
        cachedUris, ← OrderedDict.put_keys _ uri handle, Recency.rtake_of_length_le]
      rwa [List.length_map]
    · rw [resources, opened]
      exact tidy.count
    · rw [opened, cached, resources]
      exact perm.trans ((moved.symm.map Prod.snd).append_left dropped)
    · exact closed'.trans closed
  · rw [serve_raised result]
    refine ⟨?_, ?_, ?_, dropped, ?_, closed'.trans closed⟩
    · rw [resources, tidy.bound]
    · rw [requested_concat, cachedUris, resources]
      exact tidy.recent
    · rw [resources, opened, tidy.count]
    · rw [opened, cached, resources]
      exact perm
  · rw [serve_returned result]
    have put := OrderedDict.put_entries world.resources.handles uri handle
    rw [OrderedDict.erase_absent absent] at put
    refine ⟨bound.trans tidy.bound, ?_, ?_, dropped ++
      ((world.resources.handles.put uri handle).entries.rdrop maxOpen).map Prod.snd, ?_, ?_⟩
    · rw [requested_concat, Recency.recent_concat positive, ← tidy.recent, cachedUris, cachedUris,
        entries, tidy.bound, ← OrderedDict.put_keys _ uri handle, List.rtake, List.rtake,
        List.map_drop, List.length_map]
    · rw [count, opened, tidy.count, List.length_append, List.length_singleton]
    · have all : ((world.resources.handles.put uri handle).entries.rdrop maxOpen).map Prod.snd ++
          ((world.resources.handles.put uri handle).entries.rtake maxOpen).map Prod.snd =
            world.cached ++ [handle] := by
        rw [← List.map_append, List.rdrop, List.rtake, List.take_append_drop, put, List.map_append]
        rfl
      rw [opened, cached, entries, tidy.bound, List.append_assoc, all, ← List.append_assoc]
      exact perm.append_right [handle]
    · rw [closed', closed, closable_append, tidy.bound]

/-- Closing keeps the books: nothing is open afterwards, and all that was opened
is closed. -/
theorem Tidy.closeAll {maxOpen : Nat} {served : List (Served E H)}
    (tidy : Tidy host maxOpen served world) :
    Tidy host maxOpen (served ++ [.closed]) (closeAll host world) := by
  obtain ⟨dropped, perm, closed⟩ := tidy.given
  obtain ⟨resources, opened, closed'⟩ := closeAll_cases host world
  refine ⟨?_, ?_, ?_, dropped ++ world.cached, ?_, ?_⟩
  · rw [resources]
    exact tidy.bound
  · rw [requested_concat, Recency.recent_nil, cachedUris, resources]
    rfl
  · rw [resources, opened]
    exact tidy.count
  · have none : (World.closeAll host world).cached = [] := by
      rw [cached, resources]
      rfl
    rw [opened, none, List.append_nil]
    exact perm
  · rw [closed', closed, closable_append]

/-- One more request after a run of them. -/
theorem serveAll_concat (host : Host S E H) (requests : List (Request S E H))
    (request : Request S E H) (world : World S H R) :
    serveAll host (requests ++ [request]) world =
      ((serveAll host requests world).1 ++
          [(serve host request (serveAll host requests world).2).1],
        (serve host request (serveAll host requests world).2).2) := by
  rw [serveAll, List.foldl_append]
  rfl

/-- Every run keeps a worker tidy, by induction on its last request. -/
theorem serveAll_tidy (host : Host S E H) (user : S) {maxOpen : Nat} (positive : 1 ≤ maxOpen)
    (requests : List (Request S E H)) :
    Tidy host maxOpen (serveAll host requests (fresh user maxOpen : World S H R)).1
      (serveAll host requests (fresh user maxOpen : World S H R)).2 := by
  induction requests using List.reverseRecOn with
  | nil => exact tidy_fresh host user maxOpen
  | append_singleton requests request ih =>
    rw [serveAll_concat]
    cases request with
    | openOnce uri opener => exact ih.openOnce positive uri opener
    | close => exact ih.closeAll

/-! ## What a worker holds -/

/-- If handles are fresh, one that is cached is not closed: it would have to be
dropped before. -/
theorem Tidy.open_of_cached {maxOpen : Nat} {served : List (Served E H)}
    (tidy : Tidy host maxOpen served world) (distinct : world.opened.Nodup) {handle : H}
    (held : handle ∈ world.cached) : handle ∉ world.closed := by
  obtain ⟨dropped, perm, closed⟩ := tidy.given
  intro given
  rw [closed] at given
  have apart := List.nodup_append.mp (perm.nodup_iff.mp distinct)
  exact apart.2.2 handle (List.mem_of_mem_filter given) handle held rfl

/-- If handles are fresh, each is cached and open, or was closed once. No handle
leaks and none is closed twice. -/
theorem Tidy.released {maxOpen : Nat} {served : List (Served E H)}
    (tidy : Tidy host maxOpen served world) (distinct : world.opened.Nodup) :
    world.closed.Nodup ∧ ∀ handle ∈ world.opened,
      handle ∈ world.cached ∧ handle ∉ world.closed ∨
      handle ∉ world.cached ∧ ((host.close handle).isSome → handle ∈ world.closed) := by
  obtain ⟨dropped, perm, closed⟩ := tidy.given
  have apart := List.nodup_append.mp (perm.nodup_iff.mp distinct)
  refine ⟨?_, fun handle member => ?_⟩
  · rw [closed]
    exact apart.1.filter _
  · by_cases held : handle ∈ world.cached
    · exact Or.inl ⟨held, tidy.open_of_cached distinct held⟩
    · refine Or.inr ⟨held, fun closes => ?_⟩
      have gone := (List.mem_append.mp (perm.mem_iff.mp member)).resolve_right held
      rw [closed]
      exact List.mem_filter.mpr ⟨gone, closes⟩

/-- The handle of a request is the last one cached, so eviction does not take
it. -/
theorem openOnce_cached {uri : String} {opener : String → Action S E H} {handle : H}
    (positive : 1 ≤ world.resources.maxOpen)
    (result : (openOnce host uri opener world).1 = .ok handle) :
    handle ∈ (openOnce host uri opener world).2.cached := by
  obtain ⟨less, bound⟩ := Nat.exists_eq_succ_of_ne_zero (Nat.ne_of_gt positive)
  rcases openOnce_cases host uri opener world with
    ⟨handle', result', found, resources, _⟩ | ⟨e, result', _⟩ |
    ⟨handle', result', absent, entries, _⟩
  · obtain rfl := Except.ok.inj (result.symm.trans result')
    rw [cached, resources, OrderedDict.put_entries, List.map_append]
    exact List.mem_append_right _ (List.mem_singleton_self _)
  · cases result.symm.trans result'
  · obtain rfl := Except.ok.inj (result.symm.trans result')
    rw [cached, entries, bound, OrderedDict.put_entries, List.rtake_concat_succ, List.map_append]
    exact List.mem_append_right _ (List.mem_singleton_self _)

/-- A worker holds the handles of the `maxOpen` uris it returned last. Every
opener that returned counts once; if handles are fresh, each is cached and open or
was closed once, and a request returns an open one. A request whose opener raises
changes nothing. -/
theorem serveAll_recency (host : Host S E H) (user : S) (maxOpen : Nat) (positive : 1 ≤ maxOpen)
    (requests : List (Request S E H))
    (distinct : (serveAll host requests (fresh user maxOpen : World S H R)).2.opened.Nodup) :
    let served := (serveAll host requests (fresh user maxOpen : World S H R)).1
    let world := (serveAll host requests (fresh user maxOpen : World S H R)).2
    world.cachedUris = Recency.recent maxOpen (requested served) ∧
      world.resources.openCount = world.opened.length ∧
      world.closed.Nodup ∧
      (∀ handle ∈ world.opened,
        handle ∈ world.cached ∧ handle ∉ world.closed ∨
        handle ∉ world.cached ∧ ((host.close handle).isSome → handle ∈ world.closed)) ∧
      (∀ uri opener handle, (openOnce host uri opener world).1 = .ok handle →
        (openOnce host uri opener world).2.opened.Nodup →
        handle ∈ (openOnce host uri opener world).2.cached ∧
          handle ∉ (openOnce host uri opener world).2.closed) ∧
      ∀ uri opener e, (openOnce host uri opener world).1 = .error e →
        (openOnce host uri opener world).2.resources = world.resources := by
  intro served world
  have tidy : Tidy host maxOpen served world := serveAll_tidy host user positive requests
  obtain ⟨once, released⟩ := tidy.released distinct
  refine ⟨tidy.recent, tidy.count, once, released, ?_, ?_⟩
  · intro uri opener handle result fresh
    have next := tidy.openOnce positive uri opener
    rw [serve_returned result] at next
    have held := openOnce_cached (by rwa [tidy.bound]) result
    exact ⟨held, next.open_of_cached fresh held⟩
  · intro uri opener e result
    rcases openOnce_cases host uri opener world with
      ⟨handle, result', _⟩ | ⟨e', _, resources, _⟩ | ⟨handle, result', _⟩
    · cases result.symm.trans result'
    · exact resources
    · cases result.symm.trans result'

/-- Handles are numbered as they are opened; the state is the next number, and
closing does nothing to it. -/
def numbering : Host Nat String Nat where
  perfCounter next := (0, next)
  typeName _ := "RuntimeError"
  str e next := (.ok e, next)
  close _ := some (fun next => (.ok (), next))

/-- An opener that numbers its handles, so that no two are the same. -/
def number : String → Action Nat String Nat := fun _ next => (.ok next, next + 1)

/-- Two handles fit: the second request for `a` is a hit, and `c` drops `b`. -/
def mixed : List (Request Nat String Nat) :=
  [.openOnce "a" number, .openOnce "b" number, .openOnce "a" number, .openOnce "c" number,
    .openOnce "d" (fun _ next => (.error "gone", next)), .close, .openOnce "a" number]

/-- Requests with a repetition, a failure and a closing, with room for two
handles. -/
theorem serveAll_recency_of_mixed :
    let world := (serveAll numbering mixed (fresh 0 2 : World Nat Nat Unit)).2
    world.opened = [0, 1, 2, 3] ∧ world.closed = [1, 0, 2] ∧ world.cachedUris = ["a"] ∧
      world.closed.Nodup ∧ 3 ∉ world.closed := by
  have run : (serveAll numbering mixed (fresh 0 2 : World Nat Nat Unit)).2.opened =
    [0, 1, 2, 3] := rfl
  have distinct : (serveAll numbering mixed (fresh 0 2 : World Nat Nat Unit)).2.opened.Nodup := by
    rw [run]
    decide
  obtain ⟨recent, _, once, released, _⟩ :=
    serveAll_recency numbering 0 2 (by decide) mixed distinct
  have held : 3 ∈ (serveAll numbering mixed (fresh 0 2 : World Nat Nat Unit)).2.cached := by
    decide
  have opened : 3 ∈ (serveAll numbering mixed (fresh 0 2 : World Nat Nat Unit)).2.opened := by
    rw [run]
    decide
  refine ⟨run, rfl, recent.trans (by decide), once, ?_⟩
  rcases released 3 opened with cached | gone
  · exact cached.2
  · exact absurd held gone.1

end World

end GraphedCore.Execution

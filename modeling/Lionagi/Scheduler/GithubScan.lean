import Lionagi.Scheduler.GithubCursorOrder

/-!
# Scans of GitHub polls

A poll for merged pull requests walks the pages of the closed ones, which are sorted by their last update, back
to the stored cursor. The walk ends early at the cap of pages, or when a page cannot be fetched. Then the events
that are not before the oldest update are dropped. The poll begins here with its first page.
-/

namespace Lionagi.Scheduler

open Library

/-! ## Pull requests -/

structure GithubRepo where
  fullName : Option Text
  fork : Bool
  id : Option ℕ
  deriving DecidableEq

structure PullRequest where
  number : PrNumber
  title : Option Text := none
  htmlUrl : Option Text := none
  userLogin : Option Text := none
  headSha : Option Text := none
  updatedAt : Instant
  mergedAt : Option Instant
  draft : Bool := false
  headRepo : Option GithubRepo := none
  baseRepo : Option GithubRepo := none
  deriving DecidableEq

/-- What a poll is asked for. A filter that is absent, or is no boolean, is none. -/
structure GithubFilter where
  prMerged : Bool
  draft : Option Bool
  sameRepoOnly : Option Bool

structure GithubEvent where
  prNumber : PrNumber
  prTitle : Option Text
  prUrl : Option Text
  prAuthor : Option Text
  updatedAt : Text
  headSha : Option Text
  draft : Bool
  headRepo : Option Text
  headRepoIsFork : Bool
  isSameRepo : Bool
  prMergedAt : Option Text

structure GithubPollItem where
  event : GithubEvent
  updatedAt : Text
  dispatchable : Bool
  cursor : Text

namespace GithubPollItem

def position (item : GithubPollItem) : Text ×ₗ ℕ := eventPosition item.updatedAt item.event.prNumber

end GithubPollItem

structure GithubPollResult where
  items : List GithubPollItem
  scanComplete : Bool

/-! ## Pages -/

/-- A request without an answer, or an answer that is not OK. -/
inductive PageFault where
  | failed
  | rejected
  deriving DecidableEq

/-- What comes of the request for a further page. -/
inductive PageResponse where
  | fault (fault : PageFault)
  | page (prs : List PullRequest) (next : Bool)

structure PageLimits where
  perPage : ℕ
  maxPages : ℕ

def mergedModeLimits : PageLimits where
  perPage := 100
  maxPages := 5

/-- The oldest update of the page is at the cursor. Other events of the second of a numbered cursor may be
left, none of the second of a bare one. -/
def cursorReached (bound : Option (Text ×ₗ ℕ)) (page : List PullRequest) : Bool :=
  let oldestUpdated := page.getLast?.elim [] (·.updatedAt.1)
  match bound with
  | none => false
  | some bound =>
    if (ofLex bound).2 = wholeSecond then decide (oldestUpdated ≤ (ofLex bound).1)
    else decide (oldestUpdated < (ofLex bound).1)

/-- What is fetched, and whether it reaches the cursor. The budget is of further pages. -/
def scanPages (bound : Option (Text ×ₗ ℕ)) (perPage : ℕ) (fetch : ℕ → PageResponse) (budget pagesFetched : ℕ)
    (page : List PullRequest) (next : Bool) (prs : List PullRequest) : List PullRequest × Bool :=
  if page.length < perPage || cursorReached bound page || !next then (prs, true)
  else
    match budget with
    | 0 => (prs, false)
    | budget + 1 =>
      match fetch pagesFetched with
      | .fault _ => (prs, false)
      | .page page next => scanPages bound perPage fetch budget (pagesFetched + 1) page next (prs ++ page)

/-- The oldest update that was fetched, in a scan that was cut short. -/
def unsafeFloor (mergedMode scanComplete : Bool) : List PullRequest → Option Text
  | [] => none
  | pr :: prs =>
    if mergedMode && !scanComplete then
      some (prs.foldl (fun oldest pr ↦ min oldest pr.updatedAt.1) pr.updatedAt.1)
    else none

/-! ## Items -/

section Items

variable (casefold : Text → Text) (repo : Text) (filter : GithubFilter)

/-- The head is in the polled repository, by the identities of the two or else by their names. -/
def isSameRepo (pr : PullRequest) : Bool :=
  match pr.headRepo.bind (·.id), pr.baseRepo.bind (·.id) with
  | some head, some base => head == base
  | _, _ =>
    match pr.headRepo.bind (·.fullName) with
    | some name => casefold name == casefold repo
    | none => false

def isDispatchable (pr : PullRequest) : Bool :=
  (match filter.draft with
    | some draft => pr.draft == draft
    | none => true) &&
  (match filter.sameRepoOnly with
    | some true => isSameRepo casefold repo pr
    | _ => true)

def eventOf (pr : PullRequest) : GithubEvent where
  prNumber := pr.number
  prTitle := pr.title
  prUrl := pr.htmlUrl
  prAuthor := pr.userLogin
  updatedAt := pr.updatedAt.1
  headSha := pr.headSha
  draft := pr.draft
  headRepo := pr.headRepo.bind (·.fullName)
  headRepoIsFork := pr.headRepo.elim false (·.fork)
  isSameRepo := isSameRepo casefold repo pr
  prMergedAt := if filter.prMerged then pr.mergedAt.map (·.1) else none

/-- The time that the cursor of a pull request has, if it is an event. -/
def cursorAt (pr : PullRequest) : Option Instant :=
  if filter.prMerged then pr.mergedAt else some pr.updatedAt

/-- The item of a pull request that is past the bound and before the floor. -/
def pollItem (bound : Option (Text ×ₗ ℕ)) (floor : Option Text) (pr : PullRequest) : Option GithubPollItem :=
  match cursorAt filter pr with
  | none => none
  | some at' =>
    if !pastBound bound at'.1 pr.number then none
    else if floor.any fun floor ↦ decide (floor ≤ at'.1) then none
    else
      some {
        event := eventOf casefold repo filter pr
        updatedAt := at'.1
        dispatchable := isDispatchable casefold repo filter pr
        cursor := cursorFor at'.1 pr.number }

/-- The poll from its first page on. -/
def githubPoll (limits : PageLimits) (cursor : Option Text) (page : List PullRequest) (next : Bool)
    (fetch : ℕ → PageResponse) : GithubPollResult :=
  let bound := cursorBound cursor
  let scan := if filter.prMerged then
    scanPages bound limits.perPage fetch (limits.maxPages - 1) 1 page next page else (page, true)
  let floor := unsafeFloor filter.prMerged scan.2 scan.1
  { items := sortByCursor GithubPollItem.cursor (scan.1.filterMap (pollItem casefold repo filter bound floor))
    scanComplete := scan.2 }

end Items

/-! ## Repositories -/

/-- The pull requests that the service lists, by their last update from the newest on. None was merged after
it. -/
structure PullListing where
  prs : List PullRequest
  sorted : prs.Pairwise fun pr older ↦ older.updatedAt.1 ≤ pr.updatedAt.1
  merged : ∀ pr ∈ prs, ∀ mergedAt ∈ pr.mergedAt, mergedAt.1 ≤ pr.updatedAt.1
  numbered : (prs.map PullRequest.number).Nodup

namespace PullListing

variable (listing : PullListing) (perPage : ℕ)

def page (n : ℕ) : List PullRequest := (listing.prs.drop (n * perPage)).take perPage

def next (n : ℕ) : Bool := decide ((n + 1) * perPage < listing.prs.length)

/-- The service answers with a page, where there is no fault. -/
def fetch (faults : ℕ → Option PageFault) (n : ℕ) : PageResponse :=
  match faults n with
  | some fault => .fault fault
  | none => .page (listing.page perPage n) (listing.next perPage n)

/-- A poll of the repository with the faults of its further pages. -/
def poll (casefold : Text → Text) (repo : Text) (filter : GithubFilter) (limits : PageLimits)
    (cursor : Option Text) (faults : ℕ → Option PageFault) : GithubPollResult :=
  githubPoll casefold repo filter limits cursor (listing.page limits.perPage 0) (listing.next limits.perPage 0)
    (listing.fetch limits.perPage faults)

end PullListing

end Lionagi.Scheduler

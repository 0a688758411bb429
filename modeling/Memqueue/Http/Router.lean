import Memqueue.Lib.Regex
import Memqueue.Lib.Table
import Memqueue.Http.State

/-! router.c with the routes memqueue_init registers, and the queue name they recover from a path.
A path is a C string; the patterns are searched in it unanchored. -/
namespace Memqueue
open Pattern

/-- The callbacks of memqueue.c. -/
inductive RouteCb where
  | onServFile
  | onQueuePoll
  | onMultiQueuePoll
  | onQueueCreate
  | onMsgPost
  | onQueueDelete
  | onQueueInfo
  deriving DecidableEq, Repr

/-- What a callback returns: on_serv_file always declines with -2, the others answer the request. -/
def RouteCb.ret : RouteCb → Int
  | .onServFile => -2
  | _ => 0

/-- struct http_route, with the compiled pattern for the text it was compiled from. -/
structure HttpRoute where
  method : HttpMethod
  re : Pattern UInt8 (List UInt8)
  cb : RouteCb

/-- LIST_INSERT_HEAD: a route registered later is tried earlier. -/
def httpRouteOn (routes : List HttpRoute) (method : HttpMethod) (re : Pattern UInt8 (List UInt8)) (cb : RouteCb) :
    List HttpRoute := ⟨method,re,cb⟩ :: routes

/-- The dot: anything but a newline. -/
def dot : Pattern UInt8 (List UInt8) := .set fun c => c ≠ 10

/-- The optional slash at the end of every route. -/
def optSlash : Pattern UInt8 (List UInt8) := .opt (.set fun c => c = 47)

/-- The group name q_id. -/
def qIdName : List UInt8 := [113,95,105,100]

/-- The group name filename. -/
def filenameName : List UInt8 := [102,105,108,101,110,97,109,101]

/-- The reserved name mpoll. -/
def mpoll : List UInt8 := [109,112,111,108,108]

/-- "/(?<name>.+)/?" -/
def somePath (name : List UInt8) : Pattern UInt8 (List UInt8) := .lit [47] (.seq (.group name (.plus dot)) optSlash)

/-- "/(?<name>.*)/?" -/
def anyPath (name : List UInt8) : Pattern UInt8 (List UInt8) := .lit [47] (.seq (.group name (.star dot)) optSlash)

/-- The http_route_on calls of memqueue_init in their order. -/
def routes : List HttpRoute :=
  let r := httpRouteOn [] .get (somePath filenameName) .onServFile
  let r := httpRouteOn r .get (somePath qIdName) .onQueuePoll
  let r := httpRouteOn r .get (.lit (47 :: mpoll) optSlash) .onMultiQueuePoll
  let r := httpRouteOn r .put (somePath qIdName) .onQueueCreate
  let r := httpRouteOn r .post (anyPath qIdName) .onMsgPost
  let r := httpRouteOn r .delete (anyPath qIdName) .onQueueDelete
  httpRouteOn r .head (anyPath qIdName) .onQueueInfo

/-- The loop of http_route_handle_request: the callbacks it runs with the groups they get, and what it returns. -/
def httpRouteLoop (method : HttpMethod) (path : List UInt8) (matched : Bool) :
    List HttpRoute → List (RouteCb × Captures UInt8 (List UInt8)) × Int
  | [] => ([],if matched then 0 else -1)
  | route :: rs =>
    if route.method = method then
      match search route.re path with
      | none => httpRouteLoop method path matched rs
      | some h =>
        if route.cb.ret = -2 then
          let (calls,ret) := httpRouteLoop method path true rs
          ((route.cb,h) :: calls,ret)
        else ([(route.cb,h)],route.cb.ret)
    else httpRouteLoop method path matched rs

def httpRouteHandleRequest (method : HttpMethod) (path : List UInt8) :
    List (RouteCb × Captures UInt8 (List UInt8)) × Int := httpRouteLoop method path false routes

section Names

private theorem run_optSlash_nil (c : Captures UInt8 (List UInt8)) : run optSlash [] c = [([],c)] := by
  simp [optSlash,run]

private theorem run_optSlash_ne (s : List UInt8) (c : Captures UInt8 (List UInt8)) : run optSlash s c ≠ [] := by
  simp [optSlash,run]

/-- A pattern that can take the whole text first captures the whole text. -/
private theorem search_group {a : Pattern UInt8 (List UInt8)} {s : List UInt8}
    {ms : List (List UInt8 × Captures UInt8 (List UInt8))} (name : List UInt8) (h : run a s [] = ([],[]) :: ms) :
    search (.lit [47] (.seq (.group name a) optSlash)) (47 :: s) = some [(name,s)] := by
  rw [search,run_lit,if_pos (by simp)]
  simp [run,h,run_optSlash_nil]

private theorem search_anyPath (name : List UInt8) {s : List UInt8} (hs : 10 ∉ s) :
    search (anyPath name) (47 :: s) = some [(name,s)] := by
  obtain ⟨ms,hms⟩ := run_star_set (fun c : UInt8 => c ≠ 10) s ([] : Captures UInt8 (List UInt8))
  have hall : s.dropWhile (fun c => decide (c ≠ 10)) = [] := by
    rw [List.dropWhile_eq_nil_iff]
    intro x hx
    simp only [decide_eq_true_eq]
    rintro rfl
    exact hs hx
  rw [hall] at hms
  exact search_group name hms

private theorem search_somePath (name : List UInt8) {s : List UInt8} (hne : s ≠ []) (hs : 10 ∉ s) :
    search (somePath name) (47 :: s) = some [(name,s)] := by
  cases s with
  | nil => exact absurd rfl hne
  | cons x s =>
    have hx : x ≠ 10 := fun h => hs (by simp [h])
    obtain ⟨ms,hms⟩ := run_star_set (fun c : UInt8 => c ≠ 10) s ([] : Captures UInt8 (List UInt8))
    have hall : s.dropWhile (fun c => decide (c ≠ 10)) = [] := by
      rw [List.dropWhile_eq_nil_iff]
      intro y hy
      simp only [decide_eq_true_eq]
      rintro rfl
      exact hs (List.mem_cons_of_mem _ hy)
    rw [hall] at hms
    apply @search_group _ _ ms name
    have hdot : run dot (x :: s) ([] : Captures UInt8 (List UInt8)) = [(s,[])] := by simp [dot,run,hx]
    rw [plus,run,hdot,List.flatMap_singleton]
    exact hms

/-- In a path of one segment the reserved name is found exactly at the start of the segment. -/
private theorem search_mpoll {w : List UInt8} (hw : 47 ∉ w) :
    (search (.lit (47 :: mpoll) optSlash) (47 :: w)).isSome = true ↔ mpoll <+: w := by
  rw [search_isSome]
  constructor
  · rintro ⟨t,ht,hrun⟩
    rw [run_lit] at hrun
    have hpre : 47 :: mpoll <+: t := by
      by_contra h
      exact hrun (if_neg h)
    rcases List.suffix_cons_iff.mp ht with rfl | ht
    · exact (List.cons_prefix_cons.mp hpre).2
    · exact absurd (ht.subset (hpre.subset List.mem_cons_self)) hw
  · intro h
    refine ⟨47 :: w,List.suffix_refl _,?_⟩
    rw [run_lit,if_pos (List.cons_prefix_cons.mpr ⟨rfl,h⟩)]
    exact run_optSlash_ne _ _

/-- The callback that should serve a method on one queue. -/
def queueCb : HttpMethod → RouteCb
  | .get => .onQueuePoll
  | .put => .onQueueCreate
  | .post => .onMsgPost
  | .delete => .onQueueDelete
  | .head => .onQueueInfo

/-- The path of the queue `w`, with or without a slash at its end. -/
def queuePath (w : List UInt8) (slash : Bool) : List UInt8 := 47 :: w ++ if slash then [47] else []

/-- Every method but GET captures all that follows the first slash. -/
private theorem route_not_get {m : HttpMethod} {s : List UInt8} (hm : m ≠ .get) (hne : s ≠ []) (hs : 10 ∉ s) :
    httpRouteHandleRequest m (47 :: s) = ([(queueCb m,[(qIdName,s)])],0) := by
  cases m with
  | get => exact absurd rfl hm
  | put => simp [httpRouteHandleRequest,routes,httpRouteOn,httpRouteLoop,search_somePath _ hne hs,RouteCb.ret,queueCb]
  | post => simp [httpRouteHandleRequest,routes,httpRouteOn,httpRouteLoop,search_anyPath _ hs,RouteCb.ret,queueCb]
  | delete => simp [httpRouteHandleRequest,routes,httpRouteOn,httpRouteLoop,search_anyPath _ hs,RouteCb.ret,queueCb]
  | head => simp [httpRouteHandleRequest,routes,httpRouteOn,httpRouteLoop,search_anyPath _ hs,RouteCb.ret,queueCb]

/-- GET tries the route of mpoll before the one that captures. -/
private theorem route_get {s : List UInt8} (hne : s ≠ []) (hs : 10 ∉ s) :
    httpRouteHandleRequest .get (47 :: s) =
      match search (.lit (47 :: mpoll) optSlash) (47 :: s) with
      | some h => ([(.onMultiQueuePoll,h)],0)
      | none => ([(.onQueuePoll,[(qIdName,s)])],0) := by
  simp only [httpRouteHandleRequest,routes,httpRouteOn,httpRouteLoop,reduceCtorEq,if_false,if_true]
  cases search (.lit (47 :: mpoll) optSlash) (47 :: s) with
  | some h => simp [RouteCb.ret]
  | none => simp [search_somePath _ hne hs,RouteCb.ret]

/-- A path is routed to its method's callback with the queue name exactly when it has no slash at its end and,
for GET, the name does not begin with mpoll. -/
theorem route_recovers_name_iff {w : List UInt8} (hne : w ≠ []) (hslash : 47 ∉ w) (hline : 10 ∉ w) (slash : Bool)
    (m : HttpMethod) : httpRouteHandleRequest m (queuePath w slash) = ([(queueCb m,[(qIdName,w)])],0) ↔
      slash = false ∧ (m = .get → ¬ mpoll <+: w) := by
  cases slash with
  | true =>
    have hpath : queuePath w true = 47 :: (w ++ [47]) := rfl
    have hs : 10 ∉ w ++ [47] := by simp [hline]
    have hlong : ¬ w ++ [47] = w := by simp
    rw [hpath]
    simp only [Bool.true_eq_false,false_and,iff_false]
    by_cases hm : m = .get
    · subst hm
      rw [route_get (by simp) hs]
      cases search (.lit (47 :: mpoll) optSlash) (47 :: (w ++ [47])) with
      | some h => simp [queueCb]
      | none => simp [queueCb]
    · rw [route_not_get hm (by simp) hs]
      simp
  | false =>
    have hpath : queuePath w false = 47 :: w := by simp [queuePath]
    rw [hpath]
    simp only [true_and]
    by_cases hm : m = .get
    · subst hm
      have hmpoll := search_mpoll hslash
      rw [route_get hne hline]
      cases hsearch : search (.lit (47 :: mpoll) optSlash) (47 :: w) with
      | some h =>
        rw [hsearch] at hmpoll
        simp [queueCb,hmpoll.mp rfl]
      | none =>
        rw [hsearch] at hmpoll
        have : ¬ mpoll <+: w := fun h => by simpa using hmpoll.mpr h
        simp [queueCb,this]
    · rw [route_not_get hm hne hline]
      simp [hm]

end Names

/-- PUT /q/ creates a queue with the slash in its name, and GET /mpollx is not a poll of mpollx. -/
theorem slash_joins_name :
    httpRouteHandleRequest .put (queuePath [113] true) = ([(.onQueueCreate,[(qIdName,[113,47])])],0) ∧
    httpRouteHandleRequest .put (queuePath [113] true) ≠ ([(queueCb .put,[(qIdName,[113])])],0) ∧
    httpRouteHandleRequest .get (queuePath (mpoll ++ [120]) false) = ([(.onMultiQueuePoll,[])],0) :=
  ⟨by decide,by decide,by decide⟩

/-- GET /q polls the queue q. -/
theorem route_recovers_q : httpRouteHandleRequest .get (queuePath [113] false) =
    ([(.onQueuePoll,[(qIdName,[113])])],0) :=
  (route_recovers_name_iff (w := [113]) (by decide) (by decide) (by decide) false .get).mpr ⟨rfl,fun _ => by decide⟩

end Memqueue

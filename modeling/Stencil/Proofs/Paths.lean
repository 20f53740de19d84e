import Stencil.Proofs.Decimals
import Stencil.Proofs.Views

/-! # Paths

A path with a point in it leads where its two parts lead one after the other. So what the body of a loop
reads in the current item can be read outside of the loop: by the path of the list, the position of the item
and the path inside of the item. -/
namespace Stencil
open Number Rendering

namespace Value

theorem walk?_append (v : Value) (parts more : List (List Char)) :
    v.walk? (parts ++ more) = (v.walk? parts).bind (·.walk? more) :=
  List.foldlM_append

theorem get?_point (v : Value) (p q : String) :
    v.get? (p ++ "." ++ q) = (v.get? p).bind (·.get? q) := by
  have hparts : (p ++ "." ++ q).toList.splitOn '.' = p.toList.splitOn '.' ++ q.toList.splitOn '.' := by
    rw [String.toList_append, String.toList_append, List.append_assoc]
    exact List.splitOn_append_cons_self p.toList q.toList
  rw [get?, hparts, walk?_append]
  rfl

/-- A path without a point is a single step. -/
theorem get?_of_not_mem {path : String} (h : '.' ∉ path.toList) (v : Value) :
    v.get? path = v.step? path.toList := by
  rw [get?, List.splitOn_eq_singleton h]
  exact Option.bind_fun_some (v.step? path.toList)

theorem get?_position (items : List Value) (i : Nat) :
    (list items).get? (Notation.integer i) = items[i]? := by
  rw [get?_of_not_mem (Notation.point_not_mem_integer i), step?, Notation.index?_integer]
  rfl

end Value

namespace Scope

/-- The scopes in which a loop over the items renders its body, in order. -/
def rounds (scope : Scope) (items : List Value) : List Scope :=
  items.mapIdx fun index item => scope.push item index

theorem getElem?_rounds (scope : Scope) (items : List Value) (i : Nat) :
    (scope.rounds items)[i]? = items[i]?.map (scope.push · i) :=
  List.getElem?_mapIdx

/-- Where a path points at inside of a round. -/
theorem find?_round {scope round : Scope} {p : String} {items : List Value} {i : Nat}
    (hlist : scope.find? (.path p) = some (.list items)) (hround : (scope.rounds items)[i]? = some round)
    (q : String) :
    round.find? (.path q) = scope.find? (.path (p ++ "." ++ Notation.integer i ++ "." ++ q)) := by
  rw [getElem?_rounds] at hround
  obtain ⟨item, hitem, rfl⟩ := Option.map_eq_some_iff.mp hround
  have hlist : scope.current.get? p = some (.list items) := hlist
  have hposition : scope.current.get? (p ++ "." ++ Notation.integer i) = some item := by
    rw [Value.get?_point, hlist, Option.bind_some, Value.get?_position, hitem]
  show item.get? q = scope.current.get? (p ++ "." ++ Notation.integer i ++ "." ++ q)
  rw [Value.get?_point, hposition, Option.bind_some]

end Scope

namespace Ending

theorem inTurn_cons (first : Ending) (rest : List Ending) :
    inTurn (first :: rest) = first.append (inTurn rest) :=
  rfl

theorem each_eq_rounds (body : Scope → Ending) (scope : Scope) (index : Nat) (items : List Value) :
    each body scope index items =
      inTurn ((items.mapIdx fun i item => scope.push item (index + i)).map fun round =>
        (body round).ofBlock) := by
  induction items generalizing index with
  | nil => rfl
  | cons item rest ih =>
    rw [each, ih, List.mapIdx_cons, List.map_cons, inTurn_cons]
    simp only [Nat.add_zero, Nat.add_assoc, Nat.add_comm 1]

end Ending

/-- A loop over a list renders its body once in each of its rounds. -/
theorem Node.render_rounds {source : Accessor} {page : Page} {items : List Value}
    (h : page.scope.find? source = some (.list items)) (body : List Node) :
    (Node.loop source body).render page =
      (Ending.inTurn ((page.scope.rounds items).map fun round =>
        ((renderAll body).ending round).ofBlock)).on page := by
  have hrounds : Ending.ofLoop source body page.scope =
      Ending.inTurn ((page.scope.rounds items).map fun round =>
        ((renderAll body).ending round).ofBlock) := by
    rw [Ending.ofLoop, h]
    dsimp only
    rw [Ending.each_eq_rounds]
    simp only [Nat.zero_add]
    rfl
  rw [Ends.loop (renderAll_ends body) page, hrounds]

/-- Looking up a path with a point in it is looking up its parts in turn. A loop over the list that a path
names renders its body in one round for each item, and there a path, by itself or after `@data`, reads what
outside of the loop is read by the path of the list, the position and the path in turn. -/
theorem find?_compose :
    (∀ (v : Value) (p q : String), v.get? (p ++ "." ++ q) = (v.get? p).bind (·.get? q)) ∧
      ∀ (scope : Scope) (p : String) (items : List Value), scope.find? (.path p) = some (.list items) →
        (∀ source ∈ [Accessor.path p, .data (some p)], ∀ body out,
          (Node.loop source body).render ⟨scope, out⟩ =
            (Ending.inTurn ((scope.rounds items).map fun round =>
              ((renderAll body).ending round).ofBlock)).on ⟨scope, out⟩) ∧
        (scope.rounds items).length = items.length ∧
        ∀ (i : Nat) (round : Scope), (scope.rounds items)[i]? = some round →
          ∀ q, ∀ accessor ∈ [Accessor.path q, .data (some q)],
            round.find? accessor = scope.find? (.path (p ++ "." ++ Notation.integer i ++ "." ++ q)) ∧
            round.resolve accessor =
              scope.resolve (.path (p ++ "." ++ Notation.integer i ++ "." ++ q)) := by
  refine ⟨Value.get?_point, fun scope p items hlist => ⟨?_, ?_, ?_⟩⟩
  · intro source hsource body out
    have hfind : scope.find? source = some (.list items) := by
      simp only [List.mem_cons, List.not_mem_nil, or_false] at hsource
      rcases hsource with rfl | rfl <;> exact hlist
    exact Node.render_rounds hfind body
  · exact List.length_mapIdx
  · intro i round hround q accessor haccessor
    have hfind := Scope.find?_round hlist hround q
    simp only [List.mem_cons, List.not_mem_nil, or_false] at haccessor
    rcases haccessor with rfl | rfl
    · exact ⟨hfind, congrArg (·.getD Value.null) hfind⟩
    · exact ⟨hfind, congrArg (·.getD Value.null) hfind⟩

/-- The second item of a list that stands inside of another loop. -/
theorem find?_compose_nested :
    ∃ (scope round : Scope) (items : List Value), scope.frames.length = 1 ∧
      scope.find? (.path "a.b") = some (.list items) ∧ (scope.rounds items)[1]? = some round ∧
      round.resolve (.data (some "x.0")) =
        scope.resolve (.path ("a.b" ++ "." ++ Notation.integer (1 : Nat) ++ "." ++ "x.0")) ∧
      round.resolve (.data (some "x.0")) = .int 7 := by
  let items : List Value := [.null, .map [("x", .list [.int 7])]]
  let scope : Scope := ⟨.null, [⟨.map [("a", .map [("b", .list items)])], 4⟩]⟩
  have hlist : scope.find? (.path "a.b") = some (.list items) := by with_unfolding_all rfl
  obtain ⟨-, -, hrounds⟩ := find?_compose.2 scope "a.b" items hlist
  exact ⟨scope, scope.push (.map [("x", .list [.int 7])]) 1, items, rfl, hlist, rfl,
    (hrounds 1 _ rfl "x.0" (.data (some "x.0")) (by decide)).2, by with_unfolding_all rfl⟩

end Stencil

import DesignTree.NodeId.Supply
/-!
# DesignTree.Proofs.Counter

Runs of the session's counter.

The counter is shared: any number of clients draw from it, and since a draw is a single step, a run
of them is an order in which the draws come. What a client is told depends only on how many draws
there were before (`getElem?_serve`), and the counter after a number of draws has a closed form
(`after_eq`). That the numbers follow one another without a gap, stop at the limit and never come to
zero is read off these two.
-/

namespace DesignTree.IdCounter

/-- The counter after a number of draws, whether or not they succeed. -/
def after (ids : IdCounter) : Nat → IdCounter
  | 0 => ids
  | n + 1 => (ids.after n).draw.2

variable {ids : IdCounter} {n : Nat}

/-! ### The counter after some draws -/

/-- A draw counts up by one, and at the limit the counter stays. -/
theorem next_draw (within : ids.next ≤ idLimit) :
    ids.draw.2 = ⟨min (ids.next + 1) idLimit⟩ := by
  rw [draw]
  split
  · rw [Nat.min_eq_left (by omega)]
  · have last : ids.next = idLimit := by omega
    rw [Nat.min_eq_right (by omega), ← last]

theorem after_eq (within : ids.next ≤ idLimit) (n : Nat) :
    ids.after n = ⟨min (ids.next + n) idLimit⟩ := by
  induction n with
  | zero => rw [after, Nat.add_zero, Nat.min_eq_left within]
  | succ n ih =>
    have still : (ids.after n).next ≤ idLimit := by
      rw [ih]
      exact Nat.min_le_right ..
    rw [after, next_draw still, ih]
    refine congrArg IdCounter.mk ?_
    show min (min (ids.next + n) idLimit + 1) idLimit = min (ids.next + (n + 1)) idLimit
    omega

/-- Before the limit a draw gets the number that the counter is at. -/
theorem draw_after_of_lt (room : ids.next + n < idLimit) :
    ids.after n = ⟨ids.next + n⟩ ∧ (ids.after n).draw.1 = .ok ⟨ids.next + n⟩ := by
  have now : ids.after n = ⟨ids.next + n⟩ := by
    rw [after_eq (by omega), Nat.min_eq_left (Nat.le_of_lt room)]
  rw [now, draw, if_pos room]
  exact ⟨rfl, rfl⟩

/-- From the limit on a draw is refused, and leaves the counter there. -/
theorem draw_after_of_le (within : ids.next ≤ idLimit) (spent : idLimit ≤ ids.next + n) :
    (ids.after n).draw = (.error .exhausted, ⟨idLimit⟩) := by
  rw [after_eq within, Nat.min_eq_right spent]
  exact if_neg (Nat.lt_irrefl _)

/-- What is drawn counts up from the first number on, and never gets to the limit. -/
theorem val_of_draw_after (within : ids.next ≤ idLimit) {id : NodeId}
    (drawn : (ids.after n).draw.1 = .ok id) : id.val = ids.next + n ∧ id.val < idLimit := by
  by_cases room : ids.next + n < idLimit
  · rw [(draw_after_of_lt room).2] at drawn
    cases drawn
    exact ⟨rfl, room⟩
  · rw [draw_after_of_le within (by omega)] at drawn
    cases drawn

/-- Of some draws the first may be taken apart, as the last is by definition. -/
theorem after_draw (ids : IdCounter) (n : Nat) : ids.draw.2.after n = ids.after (n + 1) := by
  induction n with
  | zero => rfl
  | succ n ih => rw [after, ih, ← after]

/-- A counter that is started at a word is within the limit, which is the largest word. -/
theorem startingAt_toNat (first : UInt32) :
    startingAt first.toNat = ⟨max 1 first.toNat⟩ ∧ max 1 first.toNat ≤ idLimit := by
  have small : first.toNat < 4294967296 := first.toNat_lt
  refine ⟨congrArg IdCounter.mk ?_, Nat.max_le.mpr ⟨by decide, Nat.le_of_lt_succ small⟩⟩
  split <;> omega

/-! ### Clients -/

variable {ι : Type} {clients : List ι} {client : ι} {k : Nat}

/-- Serves clients in the order in which they come, each as often as it is listed: what each of them
is told, and the counter that remains. -/
def serve (ids : IdCounter) : List ι → List (ι × Except IdError NodeId) × IdCounter
  | [] => ([], ids)
  | client :: rest =>
    let served := ids.draw.2.serve rest
    ((client, ids.draw.1) :: served.1, served.2)

/-- The numbers that clients were told, in order. -/
def issued (replies : List (ι × Except IdError NodeId)) : List NodeId :=
  replies.filterMap fun reply => reply.2.toOption

theorem serve_cons (ids : IdCounter) (client : ι) (rest : List ι) :
    ids.serve (client :: rest) =
      ((client, ids.draw.1) :: (ids.draw.2.serve rest).1, (ids.draw.2.serve rest).2) :=
  rfl

/-- Serving leaves the counter as so many draws do, whoever draws. -/
theorem snd_serve (ids : IdCounter) (clients : List ι) :
    (ids.serve clients).2 = ids.after clients.length := by
  induction clients generalizing ids with
  | nil => rfl
  | cons client rest ih => rw [serve_cons, List.length_cons, ih, after_draw]

theorem snd_serve_take (inside : k ≤ clients.length) :
    (ids.serve (clients.take k)).2 = ids.after k := by
  rw [snd_serve, List.length_take_of_le inside]

/-- A client is told what the draw at its position gets. -/
theorem getElem?_serve (ids : IdCounter) (drawing : clients[k]? = some client) :
    (ids.serve clients).1[k]? = some (client, (ids.after k).draw.1) := by
  induction clients generalizing ids k with
  | nil => cases drawing
  | cons first rest ih =>
    cases k with
    | zero =>
      cases drawing
      rfl
    | succ k => rw [serve_cons, List.getElem?_cons_succ, ih _ drawing, after_draw]

theorem getElem?_serve_of_lt (drawing : clients[k]? = some client)
    (room : ids.next + k < idLimit) :
    (ids.serve clients).1[k]? = some (client, .ok ⟨ids.next + k⟩) := by
  rw [getElem?_serve ids drawing, (draw_after_of_lt room).2]

theorem getElem?_serve_of_le (within : ids.next ≤ idLimit) (drawing : clients[k]? = some client)
    (spent : idLimit ≤ ids.next + k) :
    (ids.serve clients).1[k]? = some (client, .error .exhausted) ∧
      (ids.serve (clients.take (k + 1))).2 = ⟨idLimit⟩ := by
  have inside : k < clients.length := (List.getElem?_eq_some_iff.mp drawing).1
  rw [getElem?_serve ids drawing, snd_serve_take inside, after, draw_after_of_le within spent]
  exact ⟨rfl, rfl⟩

/-- What the counter shows is what the next draw gets. -/
theorem draw_serve_take (inside : k ≤ clients.length) (room : ids.next + k < idLimit) :
    (ids.serve (clients.take k)).2.draw.1 = .ok ⟨(ids.serve (clients.take k)).2.next⟩ := by
  have ⟨now, drawn⟩ := draw_after_of_lt room
  rw [snd_serve_take inside, drawn, now]

/-- The numbers that are issued follow one another, up to the limit. -/
theorem issued_serve (ids : IdCounter) (clients : List ι) :
    issued (ids.serve clients).1 =
      (List.range' ids.next (min clients.length (idLimit - ids.next))).map NodeId.mk := by
  induction clients generalizing ids with
  | nil =>
    rw [List.length_nil, Nat.zero_min]
    rfl
  | cons client rest ih =>
    rw [serve_cons, List.length_cons]
    by_cases room : ids.next < idLimit
    · have drawn : ids.draw = (.ok ⟨ids.next⟩, ⟨ids.next + 1⟩) := if_pos room
      have count : min (rest.length + 1) (idLimit - ids.next) =
          min rest.length (idLimit - (ids.next + 1)) + 1 := by omega
      rw [drawn, count, List.range'_succ, List.map_cons, ← ih ⟨ids.next + 1⟩]
      rfl
    · -- A draw that is refused leaves the counter as it is, so the later ones are refused as well.
      have refused : ids.draw = (.error .exhausted, ids) := if_neg room
      have none : idLimit - ids.next = 0 := by omega
      rw [refused]
      show issued (ids.serve rest).1 = _
      rw [ih, none, Nat.min_zero, Nat.min_zero]

theorem pairwise_issued_serve (ids : IdCounter) (clients : List ι) :
    (issued (ids.serve clients).1).Pairwise fun earlier later => earlier.val < later.val := by
  rw [issued_serve, List.pairwise_map]
  exact List.pairwise_lt_range' ..

theorem bounds_of_mem_issued_serve {id : NodeId} (h : id ∈ issued (ids.serve clients).1) :
    ids.next ≤ id.val ∧ id.val < idLimit := by
  rw [issued_serve] at h
  obtain ⟨value, inRange, rfl⟩ := List.mem_map.mp h
  have ⟨low, high⟩ := List.mem_range'_1.mp inRange
  show ids.next ≤ value ∧ value < idLimit
  omega

/-- A counter that is started at any word, and any clients that draw from it, in any order and as
often as they like:

* the first number is the word, and one if that is zero;
* a draw gets the number that is as far from the first one as there were draws before it, as long as
  this is below the limit; every draw from there on is refused, and leaves the counter at the limit;
* at any point before that the counter shows the number that the next draw gets;
* the numbers that are issued are those from the first one on, without a gap: so they are strictly
  increasing, none is issued twice, and none is zero. -/
theorem draws_count_up_to_limit (first : UInt32) (clients : List ι) :
    startingAt first.toNat = ⟨max 1 first.toNat⟩ ∧
    let start := max 1 first.toNat
    let ids := startingAt first.toNat
    let replies := (ids.serve clients).1
    (∀ k client, clients[k]? = some client →
      (start + k < idLimit → replies[k]? = some (client, .ok ⟨start + k⟩)) ∧
      (idLimit ≤ start + k → replies[k]? = some (client, .error .exhausted) ∧
        (ids.serve (clients.take (k + 1))).2 = ⟨idLimit⟩)) ∧
    (∀ k ≤ clients.length, start + k < idLimit →
      let now := (ids.serve (clients.take k)).2
      now.draw.1 = .ok ⟨now.next⟩) ∧
    issued replies = (List.range' start (min clients.length (idLimit - start))).map NodeId.mk ∧
    (issued replies).Pairwise (fun earlier later => earlier.val < later.val) ∧
    ∀ id ∈ issued replies, 0 < id.val ∧ id.val < idLimit := by
  obtain ⟨starts, within⟩ := startingAt_toNat first
  refine ⟨starts, ?_⟩
  rw [starts]
  intro start ids replies
  refine ⟨fun k client drawing =>
      ⟨getElem?_serve_of_lt drawing, getElem?_serve_of_le within drawing⟩,
    fun k inside => draw_serve_take inside, issued_serve ids clients,
    pairwise_issued_serve ids clients, fun id member => ?_⟩
  obtain ⟨low, high⟩ := bounds_of_mem_issued_serve member
  exact ⟨Nat.lt_of_lt_of_le (Nat.le_max_left 1 first.toNat) low, high⟩

/-- Two clients take turns at the end of the counter: each gets a number once, and is refused when
it comes back. Started at zero, the counter issues one first. -/
theorem draws_of_two_clients :
    let ids := startingAt (4294967293 : UInt32).toNat
    let clients := ["left", "right", "left", "right"]
    (ids.serve clients).1[1]? = some ("right", .ok ⟨4294967294⟩) ∧
      (ids.serve clients).1[2]? = some ("left", .error .exhausted) ∧
      (ids.serve (clients.take 3)).2 = ⟨idLimit⟩ ∧
      (ids.serve (clients.take 1)).2.draw.1 = .ok ⟨(ids.serve (clients.take 1)).2.next⟩ ∧
      issued (ids.serve clients).1 = [⟨4294967293⟩, ⟨4294967294⟩] ∧
      (⟨4294967294⟩ : NodeId).val < idLimit ∧
      ((startingAt (0 : UInt32).toNat).serve clients).1[0]? = some ("left", .ok ⟨1⟩) := by
  intro ids clients
  obtain ⟨-, told, shown, numbers, -, positive⟩ := draws_count_up_to_limit 4294967293 clients
  obtain ⟨refused, spent⟩ := (told 2 "left" rfl).2 (by decide)
  exact ⟨(told 1 "right" rfl).1 (by decide), refused, spent, shown 1 (by decide) (by decide),
    numbers, (positive ⟨4294967294⟩ (by rw [numbers]; decide)).2,
    ((draws_count_up_to_limit 0 clients).2.1 0 "left" rfl).1 (by decide)⟩

end DesignTree.IdCounter

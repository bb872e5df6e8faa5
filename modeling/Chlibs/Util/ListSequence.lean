import Chlibs.Util.List

/-!
# Lists are sequences

What both lists are for: a sequence that grows at its end and shrinks at both ends.

* `ArrayList.Holds`, `LinkedList.Holds` — which sequence a list holds, and what keeps it together.
* `lStep_spec` — one call on a list and on the sequence.
* `lists_refine_sequences` — any calls are answered alike, with either implementation.
-/

namespace Chlibs.Util

open Infra

variable {α : Type} {xs : List α} {x : α}

/-! ## Array lists -/

/-- The first cells hold the sequence, in a block that has room for `cap` cells. -/
structure ArrayList.Holds (al : ArrayList α) (xs : List α) : Prop where
  len_eq : al.len = xs.length
  cap_eq : al.arr.length = al.cap
  cap_pos : 0 < al.cap
  cells : xs.map some <+: al.arr

section ArrayList

variable {al al' : ArrayList α}

theorem ArrayList.Holds.len_le (h : al.Holds xs) : al.len ≤ al.cap := by
  have hle := h.cells.length_le
  rwa [List.length_map, ← h.len_eq, h.cap_eq] at hle

theorem ArrayList.Holds.load (h : al.Holds xs) {i : Nat} (hi : i < xs.length) :
    al.load i = some xs[i] := by
  obtain ⟨rest, hrest⟩ := h.cells
  rw [ArrayList.load, ← hrest, List.getElem?_append_left (by simpa using hi), List.getElem?_map,
    List.getElem?_eq_getElem hi]
  rfl

theorem newArrayList_holds (iterInd : Nat) : (newArrayList iterInd : ArrayList α).Holds [] :=
  ⟨rfl, rfl, Nat.one_pos, List.nil_prefix⟩

/-- **A push**, which doubles the block where that is full. -/
theorem alPush_spec (h : al.Holds xs) (x : α) :
    ∃ al', alPush al x = some al' ∧ al'.Holds (xs ++ [x]) := by
  -- With or without growing there is room behind the cells.
  obtain ⟨al₁, hal₁, hlen, hcap, hpos, hroom, hcells⟩ : ∃ al₁ : ArrayList α,
      (if al.len = al.cap then alResize al (al.cap * 2) else al) = al₁ ∧ al₁.len = xs.length ∧
        al₁.arr.length = al₁.cap ∧ 0 < al₁.cap ∧ xs.length < al₁.arr.length ∧
        xs.map some <+: al₁.arr := by
    have hlen := h.len_eq
    have hcap := h.cap_eq
    have hpos := h.cap_pos
    have hle := h.len_le
    by_cases hfull : al.len = al.cap
    · refine ⟨_, if_pos hfull, hlen, ?_, ?_, ?_, h.cells.trans (List.prefix_append _ _)⟩
      · simp only [alResize, List.length_append, List.length_replicate]
        omega
      · simp only [alResize]
        omega
      · simp only [alResize, List.length_append, List.length_replicate]
        omega
    · exact ⟨_, if_neg hfull, hlen, hcap, hpos, by omega, h.cells⟩
  obtain ⟨rest, hrest⟩ := hcells
  obtain ⟨c, rest, rfl⟩ : ∃ c rest', rest = c :: rest' := by
    cases rest with
    | nil =>
      rw [List.append_nil] at hrest
      rw [← hrest, List.length_map] at hroom
      omega
    | cons c rest => exact ⟨c, rest, rfl⟩
  have hset : al₁.arr.set xs.length (some x) = (xs ++ [x]).map some ++ rest := by
    rw [← hrest, List.set_append_right _ _ (by simp)]
    simp
  refine ⟨{ al₁ with arr := al₁.arr.set xs.length (some x), len := xs.length + 1 }, ?_, ?_⟩
  · simp only [alPush, hal₁, alSet, ArrayList.store, alGet, hlen, if_pos hroom, Option.bind_eq_bind,
      Option.bind_some]
  · refine ⟨by simp, ?_, hpos, ?_⟩
    · rw [List.length_set, hcap]
    · rw [hset]
      exact List.prefix_append _ _

theorem ArrayList.Holds.eq_nil (h : al.Holds xs) : al.len = 0 ↔ xs = [] := by
  rw [h.len_eq, List.length_eq_zero_iff]

/-- What a call copies to `dest`. -/
def copied (dest : Bool) (x : Option α) : Option α := if dest then x else none

/-- The copy to `dest`, where there is a cell. -/
theorem copyTo_some (dest : Bool) (x : α) :
    copyTo dest (some x) = some (copied dest (some x)) := by
  cases dest <;> rfl

theorem alPop_spec (h : al.Holds xs) (dest : Bool) : ∃ al',
    alPop al dest = some (copied dest xs.getLast?, al') ∧ al'.Holds xs.dropLast := by
  rcases List.eq_nil_or_concat' xs with rfl | ⟨ys, y, rfl⟩
  · exact ⟨al, by rw [alPop, if_pos (h.eq_nil.mpr rfl)]; cases dest <;> rfl, h⟩
  · have hlen : al.len = ys.length + 1 := by rw [h.len_eq, List.length_append]; rfl
    have hload : al.load (alGet al (al.len - 1)) = some y := by
      rw [alGet, hlen, Nat.add_sub_cancel, h.load (by simp)]
      simp
    refine ⟨{ al with len := al.len - 1 }, ?_, ?_⟩
    · rw [alPop, if_neg (by omega), hload, copyTo_some, List.getLast?_concat]
      rfl
    · rw [List.dropLast_concat]
      refine ⟨by rw [hlen]; rfl, h.cap_eq, h.cap_pos, ?_⟩
      have hcells := h.cells
      rw [List.map_append] at hcells
      exact (List.prefix_append _ _).trans hcells

/-- The cells behind the hole move to the front, one by one. -/
theorem alPollLoop_spec : ∀ (todo : List α) (fuel : Nat) (done : List α) (x : α)
    (rest : List (Option α)) (al : ArrayList α), todo.length < fuel →
    al.arr = (done ++ x :: todo).map some ++ rest →
    ∃ c, alPollLoop (done.length + todo.length) fuel done.length (done.length + 1) al
      = some { al with arr := (done ++ todo).map some ++ c :: rest }
  | [], fuel + 1, done, x, rest, al, _, harr => by
    have hsame : (done ++ []).map some ++ some x :: rest = al.arr := by
      rw [harr]
      simp
    exact ⟨some x, by rw [alPollLoop, if_neg (by simp), hsame]⟩
  | y :: todo, fuel + 1, done, x, rest, al, hfuel, harr => by
    have hload : al.load (done.length + 1) = some y := by
      rw [ArrayList.load, harr]
      simp
    have hlt : done.length < al.arr.length := by
      rw [harr]
      simp
    have hset : al.arr.set done.length (some y) = ((done ++ [y]) ++ y :: todo).map some ++ rest := by
      rw [harr]
      simp
    obtain ⟨c, hrun⟩ := alPollLoop_spec todo fuel (done ++ [y]) y rest
      { al with arr := al.arr.set done.length (some y) } (by simpa using hfuel) hset
    refine ⟨c, ?_⟩
    simp only [List.length_append, List.length_singleton] at hrun
    rw [alPollLoop, if_pos (by simp)]
    simp only [hload, ArrayList.store, if_pos hlt, Option.bind_eq_bind, Option.bind_some]
    rw [List.length_cons, ← Nat.add_assoc, Nat.add_right_comm, hrun]
    simp

/-- **A poll** shifts the cells that are left. -/
theorem alPoll_spec (h : al.Holds xs) (dest : Bool) : ∃ al',
    alPoll al dest = some (copied dest xs.head?, al') ∧ al'.Holds xs.tail := by
  cases xs with
  | nil => exact ⟨al, by rw [alPoll, if_pos (h.eq_nil.mpr rfl)]; cases dest <;> rfl, h⟩
  | cons x xs =>
    have hlen : al.len = xs.length + 1 := h.len_eq
    have hfin : al.len - 1 = xs.length := by rw [hlen, Nat.add_sub_cancel]
    have hload : al.load 0 = some x := h.load (by simp)
    obtain ⟨rest, hrest⟩ := h.cells
    obtain ⟨c, hrun⟩ := alPollLoop_spec xs al.len [] x rest al (by omega) hrest.symm
    simp only [List.length_nil, Nat.zero_add, List.nil_append] at hrun
    refine ⟨{ al with arr := xs.map some ++ c :: rest, len := al.len - 1 }, ?_, ?_⟩
    · rw [alPoll, if_neg (by omega), hload, copyTo_some]
      simp only [alGet, Option.bind_eq_bind, Option.bind_some]
      rw [hfin, hrun, Option.bind_some, hfin]
      rfl
    · refine ⟨by simp [hlen], ?_, h.cap_pos, List.prefix_append _ _⟩
      rw [← h.cap_eq, ← hrest]
      simp
      omega

end ArrayList

/-! ## Linked lists -/

/-- The nodes at the addresses `as`, and no others, are one chain that holds the sequence. -/
structure LinkedList.Holds (ll : LinkedList α) (as : List Nat) (xs : List α) : Prop where
  nodup : as.Nodup
  links : Links ll.nodes none as xs none
  first_eq : ll.first = as.head?
  last_eq : ll.last = as.getLast?
  len_eq : ll.len = as.length
  live : ∀ a n, ll.nodes.load a = some n → a ∈ as

section LinkedList

variable {ll ll' : LinkedList α} {as : List Nat} {a : Nat}

theorem newLinkedList_holds (iter : Option Nat) :
    (newLinkedList iter : LinkedList α).Holds [] [] :=
  ⟨List.nodup_nil, trivial, rfl, rfl, rfl, fun a n h => by simp [newLinkedList] at h⟩

theorem LinkedList.setNext_eq (ll : LinkedList α) {prev next : Option Nat}
    (h : ll.nodes.load a = some ⟨prev, next, x⟩) (next' : Option Nat) :
    ll.setNext a next' = some { ll with nodes := ll.nodes.put a (some ⟨prev, next', x⟩) } := by
  simp only [setNext, h, Heap.store_eq h, Option.bind_eq_bind, Option.bind_some]

theorem LinkedList.setPrev_eq (ll : LinkedList α) {prev next : Option Nat}
    (h : ll.nodes.load a = some ⟨prev, next, x⟩) (prev' : Option Nat) :
    ll.setPrev a prev' = some { ll with nodes := ll.nodes.put a (some ⟨prev', next, x⟩) } := by
  simp only [setPrev, h, Heap.store_eq h, Option.bind_eq_bind, Option.bind_some]

theorem LinkedList.free_eq (ll : LinkedList α) {node : Node α} (h : ll.nodes.load a = some node) :
    ll.free a = some { ll with nodes := ll.nodes.put a none } := by
  simp only [free, Heap.free_eq h, Option.bind_eq_bind, Option.bind_some]

theorem LinkedList.Holds.length (h : ll.Holds as xs) : as.length = xs.length := h.links.length

theorem LinkedList.Holds.eq_nil (h : ll.Holds as xs) : ll.len = 0 ↔ xs = [] := by
  rw [h.len_eq, h.length, List.length_eq_zero_iff]

/-- The last node of a list. -/
theorem LinkedList.Holds.concat {bs : List Nat} {b : Nat} (h : ll.Holds (bs ++ [b]) xs) :
    ∃ ys y, xs = ys ++ [y] ∧ bs.length = ys.length ∧ b ∉ bs := by
  have hlen := h.length
  rcases List.eq_nil_or_concat' xs with rfl | ⟨ys, y, rfl⟩
  · simp at hlen
  · refine ⟨ys, y, rfl, by simpa using hlen, fun hmem => ?_⟩
    exact (List.nodup_append.mp h.nodup).2.2 b hmem b (List.mem_singleton_self b) rfl

/-- **A push** links a new node to the last one, if there is one. -/
theorem llPush_spec (h : ll.Holds as xs) (x : α) :
    ∃ ll' a, llPush ll x = some ll' ∧ ll'.Holds (as ++ [a]) (xs ++ [x]) := by
  obtain ⟨new, nodes, halloc⟩ : ∃ new nodes, ll.nodes.alloc ⟨ll.last, none, x⟩ = (new, nodes) :=
    ⟨_, _, rfl⟩
  have hload := Heap.load_alloc ll.nodes ⟨ll.last, none, x⟩
  have hfresh : ∀ a n, ll.nodes.load a = some n → a ≠ new := by
    intro a n ha
    have hne := Heap.ne_alloc_fst ha (⟨ll.last, none, x⟩ : Node α)
    rwa [halloc] at hne
  simp only [halloc] at hload
  have hself : nodes.load new = some ⟨ll.last, none, x⟩ := by rw [hload, if_pos rfl]
  have hold : Links nodes none as xs none := h.links.congr fun a ha => by
    obtain ⟨n, hn⟩ := h.links.exists_load ha
    rw [hload, if_neg (hfresh a n hn)]
  have hnew : new ∉ as := fun hmem => by
    obtain ⟨n, hn⟩ := h.links.exists_load hmem
    exact hfresh new n hn rfl
  have hnodup : (as ++ [new]).Nodup := List.nodup_append_comm.mp (List.nodup_cons.mpr ⟨hnew, h.nodup⟩)
  -- The new node is the first one, or it goes behind the last one.
  rcases List.eq_nil_or_concat' as with rfl | ⟨bs, b, rfl⟩
  · obtain rfl : xs = [] := links_nil.mp h.links
    have hlast : ll.last = none := h.last_eq
    refine ⟨{ ll with nodes := nodes, first := some new, last := some new, len := ll.len + 1 }, new,
      ?_, hnodup, ?_, rfl, rfl, ?_, ?_⟩
    · rw [hlast] at halloc
      simp only [llPush, hlast, halloc]
      rfl
    · rw [List.nil_append, List.nil_append, links_cons, links_nil, hself, hlast]
      simp
    · simp [h.len_eq]
    · intro a n ha
      rw [hload] at ha
      split at ha
      · next heq => simp [heq]
      · exact absurd (h.live a n ha) (List.not_mem_nil)
  · obtain ⟨ys, y, rfl, hlen, hb⟩ := h.concat
    have hlast : ll.last = some b := by rw [h.last_eq, List.getLast?_concat]
    obtain ⟨hbload, hlinks⟩ := hold.setNext hlen hb (some new)
    have hbnew : new ≠ b := fun heq => hnew (by simp [heq])
    refine ⟨{ ll with nodes := nodes.put b (some ⟨bs.getLast?.or none, some new, y⟩),
                      last := some new, len := ll.len + 1 }, new, ?_, hnodup, ?_, ?_, ?_, ?_, ?_⟩
    · have hset := LinkedList.setNext_eq { ll with nodes := nodes } hbload (some new)
      rw [hlast] at halloc
      simp only [hlast] at hset
      simp only [llPush, hlast, halloc, hset]
      rfl
    · refine (links_concat (by simpa using hlen)).mpr ⟨hlinks, ?_⟩
      rw [Heap.load_put_of_ne _ hbnew, hself, hlast, List.getLast?_concat]
      rfl
    · rw [h.first_eq]
      cases bs <;> rfl
    · rw [List.getLast?_concat]
    · simp [h.len_eq]
    · intro a n ha
      by_cases hab : a = b
      · simp [hab]
      · rw [Heap.load_put_of_ne _ hab, hload] at ha
        split at ha
        · next heq => simp [heq]
        · exact List.mem_append_left _ (h.live a n ha)

/-- **A pop** frees the last node, and the one before it becomes the last one. -/
theorem llPop_spec (h : ll.Holds as xs) (dest : Bool) : ∃ ll',
    llPop ll dest = some (copied dest xs.getLast?, ll') ∧ ll'.Holds as.dropLast xs.dropLast := by
  rcases List.eq_nil_or_concat' as with rfl | ⟨bs, b, rfl⟩
  · obtain rfl : xs = [] := links_nil.mp h.links
    exact ⟨ll, by rw [llPop, if_pos (h.eq_nil.mpr rfl)]; cases dest <;> rfl, h⟩
  obtain ⟨ys, y, rfl, hlen, hb⟩ := h.concat
  have hpos : ll.len ≠ 0 := fun h0 => by simp [h.eq_nil] at h0
  have hlast : ll.last = some b := by rw [h.last_eq, List.getLast?_concat]
  obtain ⟨hfront, hload⟩ := (links_concat hlen).mp h.links
  have hcell : ll.load b = some y := by rw [LinkedList.load, hload]; rfl
  have hnodup : bs.Nodup := (List.nodup_append.mp h.nodup).1
  rw [List.getLast?_concat, List.dropLast_concat, List.dropLast_concat]
  rcases List.eq_nil_or_concat' bs with rfl | ⟨cs, c, rfl⟩
  · -- the only node
    obtain rfl : ys = [] := links_nil.mp hfront
    refine ⟨{ ll with len := ll.len - 1, first := none, last := none,
                      nodes := ll.nodes.put b none }, ?_, hnodup, trivial, rfl, rfl, ?_, ?_⟩
    · have hfree := LinkedList.free_eq { ll with len := ll.len - 1, first := none, last := none } hload
      simp only [llPop, if_neg hpos, hlast, hcell, copyTo_some, hload, Option.bind_eq_bind,
        Option.bind_some, List.getLast?_nil, Option.or_none, hfree]
    · simp [h.len_eq]
    · intro a n ha
      by_cases hab : a = b
      · rw [hab, Heap.load_put_self hload] at ha
        exact absurd ha (by simp)
      · rw [Heap.load_put_of_ne _ hab] at ha
        exact absurd (h.live a n ha) (by simpa using hab)
  · obtain ⟨zs, z, rfl⟩ : ∃ zs z, ys = zs ++ [z] := by
      rcases List.eq_nil_or_concat' ys with rfl | ⟨zs, z, rfl⟩
      · simp at hlen
      · exact ⟨zs, z, rfl⟩
    have hc : c ∉ cs := fun hmem =>
      (List.nodup_append.mp hnodup).2.2 c hmem c (List.mem_singleton_self c) rfl
    have hcb : b ≠ c := fun heq => hb (by simp [heq])
    obtain ⟨hcload, hlinks⟩ := hfront.setNext (by simpa using hlen) hc none
    have hbload := (Heap.load_put_of_ne ll.nodes hcb
      (some ⟨cs.getLast?.or none, none, z⟩)).trans hload
    refine ⟨{ ll with len := ll.len - 1, last := some c,
                      nodes := (ll.nodes.put c (some ⟨cs.getLast?.or none, none, z⟩)).put b none },
      ?_, hnodup, hlinks.put hb none, ?_, ?_, ?_, ?_⟩
    · have hset := LinkedList.setNext_eq { ll with last := some c } hcload none
      have hfree := LinkedList.free_eq
        { ll with len := ll.len - 1, last := some c, nodes := ll.nodes.put c _ } hbload
      simp only [llPop, if_neg hpos, hlast, hcell, copyTo_some, hload, Option.bind_eq_bind,
        Option.bind_some, List.getLast?_concat, Option.some_or, hset, hfree]
    · rw [h.first_eq]
      cases cs <;> rfl
    · rw [List.getLast?_concat]
    · simp [h.len_eq]
    · intro a n ha
      by_cases hab : a = b
      · rw [hab, Heap.load_put_self hbload] at ha
        exact absurd ha (by simp)
      rw [Heap.load_put_of_ne _ hab] at ha
      by_cases hac : a = c
      · simp [hac]
      · rw [Heap.load_put_of_ne _ hac] at ha
        simpa [hab] using h.live a n ha

/-- **A poll** frees the first node, and the one behind it becomes the first one. -/
theorem llPoll_spec (h : ll.Holds as xs) (dest : Bool) : ∃ ll',
    llPoll ll dest = some (copied dest xs.head?, ll') ∧ ll'.Holds as.tail xs.tail := by
  have hlen := h.length
  match as, xs with
  | [], [] => exact ⟨ll, by rw [llPoll, if_pos (h.eq_nil.mpr rfl)]; cases dest <;> rfl, h⟩
  | a :: as, x :: xs =>
    have hpos : ll.len ≠ 0 := fun h0 => by simp [h.eq_nil] at h0
    have hfirst : ll.first = some a := h.first_eq
    obtain ⟨hload, htail⟩ := h.links
    obtain ⟨ha, hnodup⟩ := List.nodup_cons.mp h.nodup
    have hcell : ll.load a = some x := by rw [LinkedList.load, hload]; rfl
    rw [List.head?_cons, List.tail_cons, List.tail_cons]
    match as, xs with
    | [], [] =>
      -- the only node
      refine ⟨{ ll with len := ll.len - 1, first := none, last := none,
                        nodes := ll.nodes.put a none }, ?_, hnodup, trivial, rfl, rfl, ?_, ?_⟩
      · have hfree := LinkedList.free_eq { ll with len := ll.len - 1, first := none, last := none }
          hload
        simp only [llPoll, if_neg hpos, hfirst, hcell, copyTo_some, hload, Option.bind_eq_bind,
          Option.bind_some, List.head?_nil, Option.or_none, hfree]
      · simp [h.len_eq]
      · intro b n hb
        by_cases hba : b = a
        · rw [hba, Heap.load_put_self hload] at hb
          exact absurd hb (by simp)
        · rw [Heap.load_put_of_ne _ hba] at hb
          exact absurd (h.live b n hb) (by simpa using hba)
    | c :: cs, y :: ys =>
      have hc : c ∉ cs := (List.nodup_cons.mp hnodup).1
      have hac : a ≠ c := fun heq => ha (by simp [heq])
      obtain ⟨hcload, hlinks⟩ := htail.setPrev hc none
      have haload := (Heap.load_put_of_ne ll.nodes hac
        (some ⟨none, cs.head?.or none, y⟩)).trans hload
      refine ⟨{ ll with len := ll.len - 1, first := some c,
                        nodes := (ll.nodes.put c (some ⟨none, cs.head?.or none, y⟩)).put a none },
        ?_, hnodup, hlinks.put ha none, rfl, ?_, ?_, ?_⟩
      · have hset := LinkedList.setPrev_eq { ll with first := some c } hcload none
        have hfree := LinkedList.free_eq
          { ll with len := ll.len - 1, first := some c, nodes := ll.nodes.put c _ } haload
        simp only [llPoll, if_neg hpos, hfirst, hcell, copyTo_some, hload, Option.bind_eq_bind,
          Option.bind_some, List.head?_cons, Option.some_or, hset, hfree]
      · rw [h.last_eq, List.getLast?_cons_cons]
      · simp [h.len_eq]
      · intro b n hb
        by_cases hba : b = a
        · rw [hba, Heap.load_put_self haload] at hb
          exact absurd hb (by simp)
        rw [Heap.load_put_of_ne _ hba] at hb
        by_cases hbc : b = c
        · simp [hbc]
        · rw [Heap.load_put_of_ne _ hbc] at hb
          simpa [hba] using h.live b n hb

end LinkedList

/-! ## Iteration -/

/-- The list holds the sequence. -/
def ListT.Holds (xs : List α) : ListT α → Prop
  | .array al => al.Holds xs
  | .linked ll => ∃ as, ll.Holds as xs

/-- The list holds the sequence, and its iterator is in front of the `i`-th cell. -/
def ListT.IterAt (xs : List α) (i : Nat) : ListT α → Prop
  | .array al => al.Holds xs ∧ al.iterInd = i
  | .linked ll => ∃ as, ll.Holds as xs ∧ ll.iter = as[i]?

section Iteration

variable {l : ListT α} {i : Nat}

theorem ListT.IterAt.holds : ∀ {l : ListT α}, l.IterAt xs i → l.Holds xs
  | .array _, h => h.1
  | .linked _, ⟨as, h, _⟩ => ⟨as, h⟩

theorem lLen_eq : ∀ {l : ListT α}, l.Holds xs → lLen l = xs.length
  | .array _, h => h.len_eq
  | .linked _, ⟨_, h⟩ => h.len_eq.trans h.length

theorem lResetIterator_spec : ∀ {l : ListT α}, l.Holds xs →
    ∃ l', lResetIterator l = some ((), l') ∧ l'.impl = l.impl ∧ l'.IterAt xs 0
  | .array al, h => ⟨.array (alResetIterator al), rfl, rfl, ⟨h.1, h.2, h.3, h.4⟩, rfl⟩
  | .linked ll, ⟨as, h⟩ => ⟨.linked (llResetIterator ll), rfl, rfl, as,
      ⟨h.1, h.2, h.3, h.4, h.5, h.6⟩, h.first_eq.trans List.head?_eq_getElem?⟩

/-- **The iterator moves by one cell**, as long as there is one. -/
theorem lNextCell_of_lt (h : l.IterAt xs i) (hi : i < xs.length) :
    ∃ l', lNextCell l = some (some xs[i], l') ∧ l'.impl = l.impl ∧ l'.IterAt xs (i + 1) := by
  cases l with
  | array al =>
    obtain ⟨hal, rfl⟩ := h
    have hnext : lNext (.array al)
        = some (some al.iterInd, .array { al with iterInd := al.iterInd + 1 }) := by
      rw [lNext, alNext, if_pos (by rwa [hal.len_eq]), alGet]
    refine ⟨.array { al with iterInd := al.iterInd + 1 }, ?_, rfl,
      ⟨hal.1, hal.2, hal.3, hal.4⟩, rfl⟩
    rw [lNextCell, CallM.bind_of_some hnext]
    show (al.load al.iterInd).map _ = _
    rw [hal.load hi, Option.map_some]
  | linked ll =>
    obtain ⟨as, hll, hiter⟩ := h
    obtain ⟨a, ha⟩ : ∃ a, as[i]? = some a := ⟨_, List.getElem?_eq_getElem (hll.length ▸ hi)⟩
    obtain ⟨prev, x, hload, hx⟩ := hll.links.load_getElem? ha
    rw [Option.or_none] at hload
    have hnext : lNext (.linked ll) = some (some a, .linked { ll with iter := as[i + 1]? }) := by
      simp only [lNext, llNext, hiter.trans ha, hload, Option.bind_eq_bind, Option.bind_some,
        Option.map_some]
    refine ⟨.linked { ll with iter := as[i + 1]? }, ?_, rfl, as,
      ⟨hll.1, hll.2, hll.3, hll.4, hll.5, hll.6⟩, rfl⟩
    rw [lNextCell, CallM.bind_of_some hnext]
    show (LinkedList.load ll a).map _ = _
    rw [LinkedList.load, hload, List.getElem?_eq_some_iff.mp hx |>.2]
    rfl

/-- **The iterator stays behind the last cell.** -/
theorem lNextCell_of_le (h : l.IterAt xs i) (hi : xs.length ≤ i) :
    lNextCell l = some (none, l) := by
  cases l with
  | array al =>
    obtain ⟨hal, rfl⟩ := h
    have hnext : lNext (.array al) = some (none, .array al) := by
      rw [lNext, alNext, if_neg (by rw [hal.len_eq]; omega)]
    rw [lNextCell, CallM.bind_of_some hnext]
    rfl
  | linked ll =>
    obtain ⟨as, hll, hiter⟩ := h
    have hnone : ll.iter = none := by rw [hiter, List.getElem?_eq_none (by rw [hll.length]; exact hi)]
    have hnext : lNext (.linked ll) = some (none, .linked ll) := by
      simp only [lNext, llNext, hnone, Option.map_some]
    rw [lNextCell, CallM.bind_of_some hnext]
    rfl

/-- The iterator goes through the sequence. -/
theorem lNextCell_walks (impl : ListImpl) (xs : List α) : Walks lNextCell fun rest l =>
    l.impl = impl ∧ ∃ i, l.IterAt xs i ∧ rest = xs.drop i where
  more := by
    rintro x rest l ⟨himpl, i, hat, hrest⟩
    have hi : i < xs.length := by
      have hlen := congrArg List.length hrest
      rw [List.length_cons, List.length_drop] at hlen
      omega
    rw [List.drop_eq_getElem_cons hi, List.cons.injEq] at hrest
    obtain ⟨rfl, rfl⟩ := hrest
    obtain ⟨l', hrun, himpl', hat'⟩ := lNextCell_of_lt hat hi
    exact ⟨l', hrun, himpl'.trans himpl, i + 1, hat', rfl⟩
  done := by
    rintro l ⟨himpl, i, hat, hrest⟩
    exact ⟨l, lNextCell_of_le hat (List.drop_eq_nil_iff.mp hrest.symm), himpl, i, hat, hrest⟩

/-- **A full iteration** returns the sequence. -/
theorem lIterate_spec (h : l.Holds xs) :
    ∃ l', lIterate l = some (xs, l') ∧ l'.impl = l.impl ∧ l'.Holds xs := by
  obtain ⟨l₁, hreset, himpl, hat⟩ := lResetIterator_spec h
  obtain ⟨l', hrun, himpl', i, hat', -⟩ := (lNextCell_walks l.impl xs).drain xs (lLen l + 1)
    (by rw [lLen_eq h]; exact Nat.lt_succ_self _) ⟨himpl, 0, hat, rfl⟩
  refine ⟨l', ?_, himpl', hat'.holds⟩
  rw [lIterate, CallM.bind_of_some (rfl : readList lLen l = some (lLen l, l)),
    CallM.bind_of_some hreset, hrun]

/-- A list holds one sequence. -/
theorem ListT.Holds.unique {ys : List α} (hx : l.Holds xs) (hy : l.Holds ys) : xs = ys := by
  obtain ⟨lx, hrunx, -⟩ := lIterate_spec hx
  obtain ⟨ly, hruny, -⟩ := lIterate_spec hy
  exact congrArg Prod.fst (Option.some.inj (hrunx.symm.trans hruny))

end Iteration

/-! ## The end of a list -/

theorem deleteAndMoveArrayList_spec {al : ArrayList α} (h : al.Holds xs) :
    deleteAndMoveArrayList al = some (if xs.isEmpty then none else some xs) := by
  cases xs with
  | nil => rw [deleteAndMoveArrayList, if_pos (h.eq_nil.mpr rfl)]; rfl
  | cons x xs =>
    have hcells : al.arr.take al.len = (x :: xs).map some := by
      rw [h.len_eq, ← List.length_map (some : α → Option α)]
      exact (List.prefix_iff_eq_take.mp h.cells).symm
    have hmove : ((x :: xs).map some).mapM id = some (x :: xs) := by
      rw [List.mapM_map]
      exact (List.mapM_pure (m := Option) (f := id)).trans (by rw [List.map_id]; rfl)
    rw [deleteAndMoveArrayList, if_neg fun h0 => by simp [h.eq_nil] at h0, hcells, hmove]
    rfl

/-- Every node is freed, once. -/
theorem deleteNodesLoop_spec : ∀ (as : List Nat) (xs : List α) (fuel : Nat) (ll : LinkedList α)
    {prev : Option Nat}, as.length < fuel → as.Nodup → Links ll.nodes prev as xs none →
    ∃ nodes, deleteNodesLoop fuel as.head? ll = some { ll with nodes := nodes } ∧
      ∀ a, nodes.load a = if a ∈ as then none else ll.nodes.load a
  | [], _, fuel + 1, ll, _, _, _, _ => ⟨ll.nodes, rfl, fun a => by simp⟩
  | a :: as, x :: xs, fuel + 1, ll, _, hfuel, hnodup, hlinks => by
    obtain ⟨ha, hnodup⟩ := List.nodup_cons.mp hnodup
    obtain ⟨hload, htail⟩ := hlinks
    obtain ⟨nodes, hrun, hnodes⟩ := deleteNodesLoop_spec as xs fuel
      { ll with nodes := ll.nodes.put a none } (Nat.lt_of_succ_lt_succ hfuel) hnodup
      (htail.put ha none)
    refine ⟨nodes, ?_, fun b => ?_⟩
    · simp only [deleteNodesLoop, List.head?_cons, hload, Option.bind_eq_bind, Option.bind_some,
        LinkedList.free_eq ll hload, Option.or_none]
      exact hrun
    · rw [hnodes, Heap.load_put hload]
      by_cases hb : b = a <;> simp [hb]

theorem copyNodesLoop_spec (ll : LinkedList α) : ∀ (as : List Nat) (xs : List α) (fuel room : Nat)
    {prev : Option Nat}, as.length < fuel → as.length ≤ room → Links ll.nodes prev as xs none →
    copyNodesLoop ll fuel room as.head? = some xs
  | [], [], _ + 1, room, _, _, _, _ => by cases room <;> rfl
  | a :: as, x :: xs, fuel + 1, room + 1, _, hfuel, hroom, hlinks => by
    have hrest := copyNodesLoop_spec ll as xs fuel room (Nat.lt_of_succ_lt_succ hfuel)
      (Nat.le_of_succ_le_succ hroom) hlinks.2
    simp only [copyNodesLoop, List.head?_cons, hlinks.1, Option.bind_eq_bind, Option.bind_some,
      Option.or_none, hrest]

/-- **The cells are moved out of the list**, and no node of it is left. -/
theorem deleteAndMoveLinkedList_spec {ll : LinkedList α} {as : List Nat} (h : ll.Holds as xs) :
    ∃ ll', deleteAndMoveLinkedList ll = some (if xs.isEmpty then none else some xs, ll') ∧
      ∀ a, ll'.nodes.load a = none := by
  obtain ⟨nodes, hrun, hnodes⟩ := deleteNodesLoop_spec as xs (ll.len + 1) ll
    (by rw [h.len_eq]; exact Nat.lt_succ_self _) h.nodup h.links
  rw [← h.first_eq] at hrun
  refine ⟨{ ll with nodes := nodes }, ?_, fun a => ?_⟩
  · cases xs with
    | nil =>
      simp only [deleteAndMoveLinkedList, if_pos (h.eq_nil.mpr rfl), deleteLinkedList, hrun,
        Option.bind_eq_bind, Option.bind_some]
      rfl
    | cons x xs =>
      have hcopy := copyNodesLoop_spec ll as (x :: xs) (ll.len + 1) ll.len
        (by rw [h.len_eq]; exact Nat.lt_succ_self _) h.len_eq.ge h.links
      rw [← h.first_eq] at hcopy
      simp only [deleteAndMoveLinkedList, if_neg (fun h0 => by simp [h.eq_nil] at h0 : ll.len ≠ 0),
        hcopy, deleteLinkedList, hrun, Option.bind_eq_bind, Option.bind_some]
      rfl
  · rw [hnodes]
    split
    · rfl
    · next ha =>
      cases hload : ll.nodes.load a with
      | none => rfl
      | some n => exact absurd (h.live a n hload) ha

theorem deleteAndMoveList_spec : ∀ {l : ListT α}, l.Holds xs →
    deleteAndMoveList l = some (if xs.isEmpty then none else some xs)
  | .array al, h => deleteAndMoveArrayList_spec h
  | .linked ll, ⟨as, h⟩ => by
    obtain ⟨ll', hrun, -⟩ := deleteAndMoveLinkedList_spec h
    rw [deleteAndMoveList, hrun]
    rfl

/-! ## Sequences -/

/-- The calls on a list. -/
inductive ListOp (α : Type) where
  | push (src : α)
  | pop (dest : Bool)
  | poll (dest : Bool)
  | len
  | iterate

/-- What they tell. -/
inductive ListAnswer (α : Type) where
  | done
  | dest (out : Option α)
  | len (n : Nat)
  | cells (xs : List α)

def lCall : ListOp α → CallM (ListT α) (ListAnswer α)
  | .push src => do lPush src; pure .done
  | .pop dest => do pure (.dest (← lPop dest))
  | .poll dest => do pure (.dest (← lPoll dest))
  | .len => do pure (.len (← readList lLen))
  | .iterate => do pure (.cells (← lIterate))

/-- What they mean. Nothing is removed from an empty sequence, and nothing is copied. -/
def seqStep (xs : List α) : ListOp α → ListAnswer α × List α
  | .push src => (.done, xs ++ [src])
  | .pop dest => (.dest (copied dest xs.getLast?), xs.dropLast)
  | .poll dest => (.dest (copied dest xs.head?), xs.tail)
  | .len => (.len xs.length, xs)
  | .iterate => (.cells xs, xs)

theorem lPush_spec (src : α) : ∀ {l : ListT α}, l.Holds xs →
    ∃ l', lPush src l = some ((), l') ∧ l'.impl = l.impl ∧ l'.Holds (xs ++ [src])
  | .array al, h => by
    obtain ⟨al', hrun, h'⟩ := alPush_spec h src
    exact ⟨.array al', by rw [lPush, hrun]; rfl, rfl, h'⟩
  | .linked ll, ⟨as, h⟩ => by
    obtain ⟨ll', a, hrun, h'⟩ := llPush_spec h src
    exact ⟨.linked ll', by rw [lPush, hrun]; rfl, rfl, as ++ [a], h'⟩

theorem lPop_spec (dest : Bool) : ∀ {l : ListT α}, l.Holds xs →
    ∃ l', lPop dest l = some (copied dest xs.getLast?, l') ∧ l'.impl = l.impl ∧
      l'.Holds xs.dropLast
  | .array al, h => by
    obtain ⟨al', hrun, h'⟩ := alPop_spec h dest
    exact ⟨.array al', by rw [lPop, hrun]; rfl, rfl, h'⟩
  | .linked ll, ⟨as, h⟩ => by
    obtain ⟨ll', hrun, h'⟩ := llPop_spec h dest
    exact ⟨.linked ll', by rw [lPop, hrun]; rfl, rfl, as.dropLast, h'⟩

theorem lPoll_spec (dest : Bool) : ∀ {l : ListT α}, l.Holds xs →
    ∃ l', lPoll dest l = some (copied dest xs.head?, l') ∧ l'.impl = l.impl ∧ l'.Holds xs.tail
  | .array al, h => by
    obtain ⟨al', hrun, h'⟩ := alPoll_spec h dest
    exact ⟨.array al', by rw [lPoll, hrun]; rfl, rfl, h'⟩
  | .linked ll, ⟨as, h⟩ => by
    obtain ⟨ll', hrun, h'⟩ := llPoll_spec h dest
    exact ⟨.linked ll', by rw [lPoll, hrun]; rfl, rfl, as.tail, h'⟩

/-- **One call** does to a list what it means for the sequence. -/
theorem lCall_spec {impl : ListImpl} {l : ListT α} (h : l.impl = impl ∧ l.Holds xs)
    (op : ListOp α) : ∃ l', lCall op l = some ((seqStep xs op).1, l') ∧
      l'.impl = impl ∧ l'.Holds (seqStep xs op).2 := by
  obtain ⟨rfl, h⟩ := h
  cases op with
  | push src =>
    obtain ⟨l', hrun, h'⟩ := lPush_spec src h
    exact ⟨l', CallM.bind_of_some hrun, h'⟩
  | pop dest =>
    obtain ⟨l', hrun, h'⟩ := lPop_spec dest h
    exact ⟨l', CallM.bind_of_some hrun, h'⟩
  | poll dest =>
    obtain ⟨l', hrun, h'⟩ := lPoll_spec dest h
    exact ⟨l', CallM.bind_of_some hrun, h'⟩
  | len =>
    refine ⟨l, ?_, rfl, h⟩
    rw [lCall, CallM.bind_of_some (rfl : readList lLen l = some (lLen l, l)), lLen_eq h]
    rfl
  | iterate =>
    obtain ⟨l', hrun, h'⟩ := lIterate_spec h
    exact ⟨l', CallM.bind_of_some hrun, h'⟩

theorem newList_holds (garbage : Garbage) : ∀ impl : ListImpl,
    (newList garbage impl : ListT α).impl = impl ∧ (newList garbage impl : ListT α).Holds []
  | .arrayList => ⟨rfl, newArrayList_holds _⟩
  | .linkedList => ⟨rfl, [], newLinkedList_holds _⟩

/-- Any calls on a new list. -/
theorem runCalls_newList (garbage : Garbage) (impl : ListImpl) (ops : List (ListOp α)) :
    ∃ l : ListT α, runCalls lCall ops (newList garbage impl) = some (answers seqStep [] ops, l) ∧
      l.impl = impl ∧ l.Holds (stateAfter seqStep [] ops) :=
  runCalls_of_simulation (fun (l : ListT α) xs => l.impl = impl ∧ l.Holds xs)
    (fun _ _ op h => lCall_spec h op) ops (newList garbage impl) [] (newList_holds garbage impl)

/--
**Both lists are sequences**: any calls are defined and are answered like those on a sequence, and
keep the list together. In the end the cells of the sequence are moved out of it.
-/
theorem lists_refine_sequences (garbage : Garbage) (impl : ListImpl) (ops : List (ListOp α)) :
    ∃ l : ListT α, runCalls lCall ops (newList garbage impl) = some (answers seqStep [] ops, l) ∧
      l.impl = impl ∧ l.Holds (stateAfter seqStep [] ops) ∧
      (∀ al, l = .array al → al.len ≤ al.cap) ∧
      deleteAndMoveList l = some (if (stateAfter seqStep ([] : List α) ops).isEmpty then none
        else some (stateAfter seqStep [] ops)) := by
  obtain ⟨l, hrun, himpl, hholds⟩ := runCalls_newList garbage impl ops
  refine ⟨l, hrun, himpl, hholds, ?_, deleteAndMoveList_spec hholds⟩
  rintro al rfl
  exact ArrayList.Holds.len_le hholds

end Chlibs.Util

import Chlibs.Json.Equality
import Chlibs.Util.ListEquality
import Chlibs.Util.MapIteration

/-!
# Comparing trees in memory

`json_equals` drives the iterators of the lists and maps that it compares. Here they are in memory,
each at its address, and the trees are told by those.

* `InMemory` — which tree is in memory, and at which addresses.
* `jsonEqualsAt_spec` — two trees that share nothing are compared as `jsonEquals` says.
* `SameContent` — equality of trees by what they hold.
* `jsonEqualsAt_self` — a tree is compared with itself.
-/

namespace Chlibs.Chjson

open Infra Util

variable {Num : Type}

/-! ## Memory -/

/-- `json_t`. A list or a map is told by its address. -/
inductive JsonRef (Num : Type) where
  | object (hm : Nat)
  | list (l : Nat)
  | string (s : Bytes)
  | number (n : Num)
  | boolean (b : Bool)
  | null

structure JsonMem (Num : Type) where
  lists : Heap (ListT (JsonRef Num))
  maps : Heap (HashMapT Bytes (JsonRef Num))

def listsOf : Part (JsonMem Num) (Heap (ListT (JsonRef Num))) where
  get mem := mem.lists
  set mem lists := { mem with lists := lists }
  get_set _ _ := rfl
  set_get _ := rfl

def mapsOf : Part (JsonMem Num) (Heap (HashMapT Bytes (JsonRef Num))) where
  get mem := mem.maps
  set mem maps := { mem with maps := maps }
  get_set _ _ := rfl
  set_get _ := rfl

/-- `json_equals`, with a bound for the depth of the recursion. -/
def jsonEqualsAt [BEq Num] : Nat → JsonRef Num → JsonRef Num → CallM (JsonMem Num) Bool
  | 0, _, _ => failure
  | fuel + 1, .object hm1, .object hm2 => hmEqualsAt mapsOf hm1 hm2 (jsonEqualsAt fuel)
  | fuel + 1, .list l1, .list l2 => lEquals listsOf l1 l2 (jsonEqualsAt fuel)
  | _ + 1, .string s1, .string s2 => pure (sEquals s1 s2)
  | _ + 1, .number n1, .number n2 => pure (n1 == n2)
  | _ + 1, .boolean b1, .boolean b2 => pure (b1 == b2)
  | _ + 1, .null, .null => pure true
  | _ + 1, _, _ => pure false

/-! ## Trees -/

/-- Maps of strings, and numbers that equal themselves: NaN does not. -/
inductive NoNaN [BEq Num] : Json Num → Prop
  | object {hm} : hm.Inv → hm.hashFunc = sHash → hm.eqFunc = sEquals →
    (∀ kv ∈ hmKvps hm, NoNaN kv.value) → NoNaN (.object hm)
  | list {l} : (∀ json ∈ l, NoNaN json) → NoNaN (.list l)
  | string {s} : NoNaN (.string s)
  | number {n} : (n == n) = true → NoNaN (.number n)
  | boolean {b} : NoNaN (.boolean b)
  | null : NoNaN .null

/--
Both trees hold the same: equal elements at each position, equal values under each key, and the
same strings up to the first NUL.
-/
inductive SameContent [BEq Num] : Json Num → Json Num → Prop
  | object {hm1 hm2} : (∀ k, (hmGet hm1 k).isSome = (hmGet hm2 k).isSome) →
    (∀ k v w, hmGet hm1 k = some v → hmGet hm2 k = some w → SameContent v w) →
    SameContent (.object hm1) (.object hm2)
  | list {l1 l2} : l1.length = l2.length →
    (∀ (i : Nat) (x y : Json Num), l1[i]? = some x → l2[i]? = some y → SameContent x y) →
    SameContent (.list l1) (.list l2)
  | string {s1 s2} : cString s1 = cString s2 → SameContent (.string s1) (.string s2)
  | number {n1 n2} : (n1 == n2) = true → SameContent (.number n1) (.number n2)
  | boolean {b} : SameContent (.boolean b) (.boolean b)
  | null : SameContent .null .null

/-! ## Trees in memory -/

inductive Handle where
  | list (l : Nat)
  | map (hm : Nat)
  deriving DecidableEq

/-- A tree, how it is referred to, and which lists and maps it is made of. -/
structure MemTree (Num : Type) where
  ref : JsonRef Num
  tree : Json Num
  handles : List Handle

/-- What is in memory. The iterators may be anywhere. -/
inductive InMemory (mem : JsonMem Num) : MemTree Num → Prop
  | object {a m} {hm : HashMap Bytes (MemTree Num)} : mem.maps.load a = some m →
    m.hm = hm.map MemTree.ref → (∀ kv ∈ hmKvps hm, InMemory mem kv.value) →
    InMemory mem ⟨.object a, .object (hm.map MemTree.tree),
      .map a :: (hmKvps hm).flatMap fun kv => kv.value.handles⟩
  | list {a L} {cs : List (MemTree Num)} : mem.lists.load a = some L →
    L.Holds (cs.map MemTree.ref) → (∀ c ∈ cs, InMemory mem c) →
    InMemory mem ⟨.list a, .list (cs.map MemTree.tree), .list a :: cs.flatMap MemTree.handles⟩
  | string {s} : InMemory mem ⟨.string s, .string s, []⟩
  | number {n} : InMemory mem ⟨.number n, .number n, []⟩
  | boolean {b} : InMemory mem ⟨.boolean b, .boolean b, []⟩
  | null : InMemory mem ⟨.null, .null, []⟩

/-- The contents are the same, and no iterator but those of the handles has been moved. -/
structure Touches (mem mem' : JsonMem Num) (handles : List Handle) : Prop where
  list : ∀ a L, mem.lists.load a = some L → ∃ L', mem'.lists.load a = some L' ∧
    (∀ xs, L.Holds xs → L'.Holds xs) ∧ (.list a ∉ handles → L' = L)
  map : ∀ a m, mem.maps.load a = some m → ∃ m', mem'.maps.load a = some m' ∧
    m'.hm = m.hm ∧ (.map a ∉ handles → m' = m)

section Touches

variable {mem mem' mem'' : JsonMem Num} {hs hs' : List Handle} {a : Nat}

theorem Touches.refl (mem : JsonMem Num) (hs : List Handle) : Touches mem mem hs :=
  ⟨fun _ L h => ⟨L, h, fun _ => id, fun _ => rfl⟩, fun _ m h => ⟨m, h, rfl, fun _ => rfl⟩⟩

theorem Touches.mono (h : Touches mem mem' hs) (hsub : hs ⊆ hs') : Touches mem mem' hs' where
  list a L hL := by
    obtain ⟨L', hL', hsame, hother⟩ := h.list a L hL
    exact ⟨L', hL', hsame, fun hnot => hother fun hmem => hnot (hsub hmem)⟩
  map a m hm := by
    obtain ⟨m', hm', hsame, hother⟩ := h.map a m hm
    exact ⟨m', hm', hsame, fun hnot => hother fun hmem => hnot (hsub hmem)⟩

theorem Touches.trans (h : Touches mem mem' hs) (h' : Touches mem' mem'' hs) :
    Touches mem mem'' hs where
  list a L hL := by
    obtain ⟨L', hL', hsame, hother⟩ := h.list a L hL
    obtain ⟨L'', hL'', hsame', hother'⟩ := h'.list a L' hL'
    exact ⟨L'', hL'', fun xs hxs => hsame' xs (hsame xs hxs),
      fun hnot => (hother' hnot).trans (hother hnot)⟩
  map a m hm := by
    obtain ⟨m', hm', hsame, hother⟩ := h.map a m hm
    obtain ⟨m'', hm'', hsame', hother'⟩ := h'.map a m' hm'
    exact ⟨m'', hm'', hsame'.trans hsame, fun hnot => (hother' hnot).trans (hother hnot)⟩

theorem Touches.load_list (h : Touches mem mem' hs) {L : ListT (JsonRef Num)}
    (hL : mem.lists.load a = some L) (ha : .list a ∉ hs) : mem'.lists.load a = some L := by
  obtain ⟨L', hL', -, hother⟩ := h.list a L hL
  rw [hL', hother ha]

theorem Touches.load_map (h : Touches mem mem' hs) {m : HashMapT Bytes (JsonRef Num)}
    (hm : mem.maps.load a = some m) (ha : .map a ∉ hs) : mem'.maps.load a = some m := by
  obtain ⟨m', hm', -, hother⟩ := h.map a m hm
  rw [hm', hother ha]

/-- The iterator of a list is moved. -/
theorem Touches.ignores (mem : JsonMem Num) (ha : .list a ∈ hs) :
    Ignores listsOf (fun mem' => Touches mem mem' hs) a := by
  intro mem' L L' hload hsame h
  refine h.trans ⟨fun b Lb hb => ?_, fun b m hb => ⟨m, hb, rfl, fun _ => rfl⟩⟩
  by_cases hba : b = a
  · subst hba
    obtain rfl := Option.some.inj (hload.symm.trans hb)
    exact ⟨L', Part.load_put_self hload L', hsame, fun hnot => absurd ha hnot⟩
  · exact ⟨Lb, (Part.load_put_of_ne listsOf mem' hba L').trans hb, fun _ => id, fun _ => rfl⟩

/-- The iterator of a map is moved. -/
theorem Touches.put_map (ha : .map a ∈ hs) {m m' : HashMapT Bytes (JsonRef Num)}
    (hload : (mapsOf.get mem').load a = some m) (hsame : m'.hm = m.hm)
    (h : Touches mem mem' hs) : Touches mem (mapsOf.put mem' a m') hs := by
  refine h.trans ⟨fun b L hb => ⟨L, hb, fun _ => id, fun _ => rfl⟩, fun b mb hb => ?_⟩
  by_cases hba : b = a
  · subst hba
    obtain rfl := Option.some.inj (hload.symm.trans hb)
    exact ⟨m', Part.load_put_self hload m', hsame, fun hnot => absurd ha hnot⟩
  · exact ⟨mb, (Part.load_put_of_ne mapsOf mem' hba m').trans hb, rfl, fun _ => rfl⟩

/-- A tree in memory does not depend on where the iterators are. -/
theorem InMemory.touches {d : MemTree Num} (hd : InMemory mem d) (h : Touches mem mem' hs) :
    InMemory mem' d := by
  induction hd with
  | object hload hhm _ ih =>
    obtain ⟨m', hm', hsame, -⟩ := h.map _ _ hload
    exact .object hm' (hsame.trans hhm) ih
  | list hload hL _ ih =>
    obtain ⟨L', hL', hsame, -⟩ := h.list _ _ hload
    exact .list hL' (hsame _ hL) ih
  | string => exact .string
  | number => exact .number
  | boolean => exact .boolean
  | null => exact .null

end Touches

/-! ## Two trees -/

section Equality

variable [BEq Num]

theorem jsonEquals_object_eq (hm1 hm2 : HashMap Bytes (Json Num)) :
    jsonEquals (.object hm1) (.object hm2) = hmEquals hm1 hm2 jsonEquals := by
  rw [Bool.eq_iff_iff, jsonEquals_object, hmEquals_eq_true]

theorem jsonEquals_list_eq (l1 l2 : List (Json Num)) : jsonEquals (.list l1) (.list l2)
    = (l1.length == l2.length && (l1.zip l2).all fun c => jsonEquals c.1 c.2) := by
  rw [Bool.eq_iff_iff, jsonEquals_list, List.forall₂_iff_zip, Bool.and_eq_true, beq_iff_eq,
    List.all_eq_true]
  exact and_congr_right fun _ => ⟨fun h c hc => h hc, fun h a b hc => h (a, b) hc⟩

/-- The same comparison, with the trees at their addresses. -/
theorem hmEquals_map_tree (c1 c2 : HashMap Bytes (MemTree Num)) :
    hmEquals (c1.map MemTree.tree) (c2.map MemTree.tree) jsonEquals
      = hmEquals c1 c2 fun d1 d2 => jsonEquals d1.tree d2.tree := by
  rw [Bool.eq_iff_iff, hmEquals_eq_true, hmEquals_eq_true, hmKvps_map, List.forall_mem_map]
  refine and_congr_right fun _ => forall₂_congr fun kv _ => ?_
  simp only [KeyVal.map, hmGet_map, Option.map_eq_some_iff]
  exact ⟨fun ⟨_, ⟨d, hd, rfl⟩, heq⟩ => ⟨d, hd, heq⟩, fun ⟨d, hd, heq⟩ => ⟨_, ⟨d, hd, rfl⟩, heq⟩⟩

/-- A block and what is below it, beside another one. -/
theorem nodup_below {β : Type} {a b : β} {xs ys xs' ys' : List β} (h : (a :: xs ++ b :: ys).Nodup)
    (hx : xs'.Sublist xs) (hy : ys'.Sublist ys) :
    a ≠ b ∧ (xs' ++ ys').Nodup ∧ a ∉ xs' ++ ys' ∧ b ∉ xs' ++ ys' := by
  have hall : (a :: xs' ++ b :: ys').Nodup :=
    List.Sublist.nodup ((hx.cons_cons a).append (hy.cons_cons b)) h
  rw [List.cons_append, List.nodup_cons, List.nodup_middle, List.nodup_cons] at hall
  obtain ⟨ha, hb, hnodup⟩ := hall
  exact ⟨fun hab => ha (by simp [hab]), hnodup, fun hmem => ha (by
    rcases List.mem_append.mp hmem with hmem | hmem <;> simp [hmem]), hb⟩

/-- What is below one of the blocks. -/
theorem sublist_flatMap {β γ : Type} {f : γ → List β} {cs : List γ} {c : γ} (hc : c ∈ cs) :
    (f c).Sublist (cs.flatMap f) := by
  rw [List.flatMap_def]
  exact List.sublist_flatten_of_mem (List.mem_map_of_mem hc)

/-- What a comparison of two trees is expected to do. -/
def ComparesTrees (fuel : Nat) (d1 d2 : MemTree Num) : Prop :=
  ∀ mem, InMemory mem d1 → InMemory mem d2 → (d1.handles ++ d2.handles).Nodup →
    ∃ mem', jsonEqualsAt fuel d1.ref d2.ref mem = some (jsonEquals d1.tree d2.tree, mem') ∧
      Touches mem mem' (d1.handles ++ d2.handles)

/-- **Two lists**, where the elements are compared as expected. -/
theorem jsonEqualsAt_list {fuel a1 a2 : Nat} {mem : JsonMem Num} {L1 L2 : ListT (JsonRef Num)}
    {cs1 cs2 : List (MemTree Num)} (ih : ∀ c1 ∈ cs1, ∀ c2 ∈ cs2, ComparesTrees fuel c1 c2)
    (h1 : mem.lists.load a1 = some L1) (hL1 : L1.Holds (cs1.map MemTree.ref))
    (hcs1 : ∀ c ∈ cs1, InMemory mem c)
    (h2 : mem.lists.load a2 = some L2) (hL2 : L2.Holds (cs2.map MemTree.ref))
    (hcs2 : ∀ c ∈ cs2, InMemory mem c) {hs : List Handle}
    (hhs : hs = .list a1 :: cs1.flatMap MemTree.handles ++ .list a2 :: cs2.flatMap MemTree.handles)
    (hnodup : hs.Nodup) :
    ∃ mem', lEquals listsOf a1 a2 (jsonEqualsAt fuel) mem
      = some (jsonEquals (.list (cs1.map MemTree.tree)) (.list (cs2.map MemTree.tree)), mem') ∧
        Touches mem mem' hs := by
  have ha1 : Handle.list a1 ∈ hs := by simp [hhs]
  have ha2 : Handle.list a2 ∈ hs := by simp [hhs]
  have hne : a1 ≠ a2 := fun heq =>
    (nodup_below (hhs ▸ hnodup) (List.nil_sublist _) (List.nil_sublist _)).1 (congrArg _ heq)
  obtain ⟨mem', hrun, htouch⟩ := lEquals_spec_of_ne MemTree.ref MemTree.ref cs1 cs2
    (fun d1 d2 => jsonEquals d1.tree d2.tree) (jsonEqualsAt fuel) hne
    (Touches.ignores mem ha1) (Touches.ignores mem ha2)
    (fun c hc mem' htouch => by
      obtain ⟨hc1, hc2⟩ := List.of_mem_zip hc
      obtain ⟨-, hdisjoint, hnot1, hnot2⟩ := nodup_below (hhs ▸ hnodup)
        (sublist_flatMap (f := MemTree.handles) hc1) (sublist_flatMap hc2)
      -- Comparing two cells moves iterators below them, and not those of the two lists.
      obtain ⟨mem'', hrun, htouch'⟩ := ih c.1 hc1 c.2 hc2 mem' ((hcs1 _ hc1).touches htouch)
        ((hcs2 _ hc2).touches htouch) hdisjoint
      obtain ⟨L1', hL1', -⟩ := htouch.list a1 L1 h1
      obtain ⟨L2', hL2', -⟩ := htouch.list a2 L2 h2
      refine ⟨mem'', hrun, htouch.trans (htouch'.mono ?_),
        (htouch'.load_list hL1' hnot1).trans hL1'.symm,
        (htouch'.load_list hL2' hnot2).trans hL2'.symm⟩
      rw [hhs]
      exact (List.append_subset.mpr
        ⟨fun x hx => by simp [(sublist_flatMap hc1).subset hx],
          fun x hx => by simp [(sublist_flatMap hc2).subset hx]⟩))
    h1 hL1 h2 hL2 (Touches.refl mem hs)
  refine ⟨mem', hrun.trans ?_, htouch⟩
  rw [jsonEquals_list_eq, List.length_map, List.length_map, List.zip_map, List.all_map]
  rfl

/-- **Two maps**, where the values are compared as expected. -/
theorem jsonEqualsAt_object {fuel a1 a2 : Nat} {mem : JsonMem Num}
    {m1 m2 : HashMapT Bytes (JsonRef Num)} {c1 c2 : HashMap Bytes (MemTree Num)} (hinv : c1.Inv)
    (hinv2 : c2.Inv)
    (ih : ∀ kv1 ∈ hmKvps c1, ∀ kv2 ∈ hmKvps c2, ComparesTrees fuel kv1.value kv2.value)
    (h1 : mem.maps.load a1 = some m1) (hm1 : m1.hm = c1.map MemTree.ref)
    (hc1 : ∀ kv ∈ hmKvps c1, InMemory mem kv.value)
    (h2 : mem.maps.load a2 = some m2) (hm2 : m2.hm = c2.map MemTree.ref)
    (hc2 : ∀ kv ∈ hmKvps c2, InMemory mem kv.value) {hs : List Handle}
    (hhs : hs = (.map a1 :: (hmKvps c1).flatMap fun kv => kv.value.handles) ++
      .map a2 :: (hmKvps c2).flatMap fun kv => kv.value.handles)
    (hnodup : hs.Nodup) :
    ∃ mem', hmEqualsAt mapsOf a1 a2 (jsonEqualsAt fuel) mem
      = some (jsonEquals (.object (c1.map MemTree.tree)) (.object (c2.map MemTree.tree)), mem') ∧
        Touches mem mem' hs := by
  have ha1 : Handle.map a1 ∈ hs := by simp [hhs]
  obtain ⟨mem', hrun, htouch⟩ := hmEqualsAt_spec mapsOf MemTree.ref MemTree.ref c1 c2 hinv
    (fun d1 d2 => jsonEquals d1.tree d2.tree) (jsonEqualsAt fuel)
    (fun mem' => Touches mem mem' hs)
    (fun mem' m m' hload hsame htouch => htouch.put_map ha1 hload hsame)
    (fun kv1 hkv1 v hget mem' htouch => by
      obtain ⟨kv2, hkv2, -, rfl⟩ := (hmGet_eq_some hinv2 _ _).mp hget
      have hsub1 := sublist_flatMap (f := fun kv : KeyVal Bytes (MemTree Num) => kv.value.handles) hkv1
      have hsub2 := sublist_flatMap (f := fun kv : KeyVal Bytes (MemTree Num) => kv.value.handles) hkv2
      obtain ⟨-, hdisjoint, hnot1, hnot2⟩ := nodup_below (hhs ▸ hnodup) hsub1 hsub2
      -- Comparing two values moves iterators below them, and not those of the two maps.
      obtain ⟨mem'', hrun, htouch'⟩ := ih kv1 hkv1 kv2 hkv2 mem' ((hc1 _ hkv1).touches htouch)
        ((hc2 _ hkv2).touches htouch) hdisjoint
      obtain ⟨m1', hm1', -⟩ := htouch.map a1 m1 h1
      obtain ⟨m2', hm2', -⟩ := htouch.map a2 m2 h2
      refine ⟨mem'', hrun, htouch.trans (htouch'.mono ?_),
        (htouch'.load_map hm1' hnot1).trans hm1'.symm,
        (htouch'.load_map hm2' hnot2).trans hm2'.symm⟩
      rw [hhs]
      exact (List.append_subset.mpr
        ⟨fun x hx => List.mem_append_left _ (List.mem_cons_of_mem _ (hsub1.subset hx)),
          fun x hx => List.mem_append_right _ (List.mem_cons_of_mem _ (hsub2.subset hx))⟩))
    h1 hm1 h2 hm2 (Touches.refl mem hs)
  exact ⟨mem', by rw [hrun, jsonEquals_object_eq, hmEquals_map_tree], htouch⟩

omit [BEq Num] in
/-- The values of a map at its addresses. -/
theorem forall_kvps_tree {P : Json Num → Prop} {c : HashMap Bytes (MemTree Num)}
    (h : ∀ kv ∈ hmKvps (c.map MemTree.tree), P kv.value) : ∀ kv ∈ hmKvps c, P kv.value.tree := by
  rw [hmKvps_map, List.forall_mem_map] at h
  exact h

/--
**Trees that share nothing** are compared as `jsonEquals` says, wherever the iterators are, and
only iterators are moved.
-/
theorem jsonEqualsAt_spec : ∀ (fuel : Nat) {d1 d2 : MemTree Num}, NoNaN d1.tree → NoNaN d2.tree →
    sizeOf d1.tree < fuel → ComparesTrees fuel d1 d2
  | fuel + 1, d1, d2, hok1, hok2, hfuel => by
    intro mem h1 h2 hnodup
    cases h1 with
    | @object a1 m1 c1 hload1 hm1 hc1 =>
      cases h2 with
      | object hload2 hm2 hc2 =>
        cases hok1 with
        | object hinv1 _ _ hok1 =>
        cases hok2 with
        | object hinv2 _ _ hok2 =>
        refine jsonEqualsAt_object (HashMap.inv_of_map hinv1) (HashMap.inv_of_map hinv2) ?_ hload1
          hm1 hc1 hload2 hm2 hc2 rfl hnodup
        intro kv1 hkv1 kv2 hkv2
        have hsize : sizeOf kv1.value.tree < sizeOf (Json.object (c1.map MemTree.tree)) :=
          forall_kvps_tree (P := fun json => sizeOf json < _) (fun kv hkv => sizeOf_value_lt hkv)
            kv1 hkv1
        exact jsonEqualsAt_spec fuel (forall_kvps_tree hok1 kv1 hkv1)
          (forall_kvps_tree hok2 kv2 hkv2) (by dsimp only at hfuel; omega)
      | _ => exact ⟨mem, by rw [jsonEquals_of_kind (by rintro ⟨⟩)]; rfl, .refl mem _⟩
    | @list a1 L1 cs1 hload1 hL1 hcs1 =>
      cases h2 with
      | list hload2 hL2 hcs2 =>
        cases hok1 with
        | list hok1 =>
        cases hok2 with
        | list hok2 =>
        refine jsonEqualsAt_list ?_ hload1 hL1 hcs1 hload2 hL2 hcs2 rfl hnodup
        intro c1 hc1 c2 hc2
        have hsize : sizeOf c1.tree < sizeOf (Json.list (cs1.map MemTree.tree)) :=
          sizeOf_element_lt (List.mem_map_of_mem hc1)
        exact jsonEqualsAt_spec fuel (hok1 _ (List.mem_map_of_mem hc1))
          (hok2 _ (List.mem_map_of_mem hc2)) (by dsimp only at hfuel; omega)
      | _ => exact ⟨mem, by rw [jsonEquals_of_kind (by rintro ⟨⟩)]; rfl, .refl mem _⟩
    | string =>
      cases h2 with
      | string => exact ⟨mem, by rw [jsonEquals]; rfl, .refl mem _⟩
      | _ => exact ⟨mem, by rw [jsonEquals_of_kind (by rintro ⟨⟩)]; rfl, .refl mem _⟩
    | number =>
      cases h2 with
      | number => exact ⟨mem, by rw [jsonEquals]; rfl, .refl mem _⟩
      | _ => exact ⟨mem, by rw [jsonEquals_of_kind (by rintro ⟨⟩)]; rfl, .refl mem _⟩
    | boolean =>
      cases h2 with
      | boolean => exact ⟨mem, by rw [jsonEquals]; rfl, .refl mem _⟩
      | _ => exact ⟨mem, by rw [jsonEquals_of_kind (by rintro ⟨⟩)]; rfl, .refl mem _⟩
    | null =>
      cases h2 with
      | null => exact ⟨mem, by rw [jsonEquals]; rfl, .refl mem _⟩
      | _ => exact ⟨mem, by rw [jsonEquals_of_kind (by rintro ⟨⟩)]; rfl, .refl mem _⟩

/-! ## Content -/

/-- Trees of different kinds hold different things, and are compared so. -/
theorem jsonEquals_iff_sameContent_of_kind {json1 json2 : Json Num}
    (h : kindOf json1 = kindOf json2 →
      (jsonEquals json1 json2 = true ↔ SameContent json1 json2)) :
    jsonEquals json1 json2 = true ↔ SameContent json1 json2 := by
  by_cases hkind : kindOf json1 = kindOf json2
  · exact h hkind
  · refine iff_of_false (Bool.eq_false_iff.mp (jsonEquals_of_kind hkind)) fun hsame => ?_
    cases hsame <;> exact hkind rfl

/-- **`json_equals` on two trees decides whether they hold the same.** -/
theorem jsonEquals_iff_sameContent {json1 json2 : Json Num} (h1 : NoNaN json1) (h2 : NoNaN json2) :
    jsonEquals json1 json2 = true ↔ SameContent json1 json2 := by
  induction h1 generalizing json2 with
  | @object hm1 hinv1 hhash1 heq1 hvalues1 ih =>
    refine jsonEquals_iff_sameContent_of_kind fun hkind => ?_
    cases h2 with
    | @object hm2 hinv2 hhash2 heq2 hvalues2 =>
      have hkeys : hm1.SameKey = hm2.SameKey := by
        unfold HashMap.SameKey
        rw [hhash1, heq1, hhash2, heq2]
      rw [jsonEquals_object_eq, hmEquals_iff_hmGet hinv1 hinv2 hkeys]
      have hvalue : ∀ {k v w}, hmGet hm1 k = some v → hmGet hm2 k = some w →
          (jsonEquals v w = true ↔ SameContent v w) := by
        intro k v w hv hw
        obtain ⟨kv1, hkv1, -, rfl⟩ := (hmGet_eq_some hinv1 _ _).mp hv
        obtain ⟨kv2, hkv2, -, rfl⟩ := (hmGet_eq_some hinv2 _ _).mp hw
        exact ih kv1 hkv1 (hvalues2 kv2 hkv2)
      simp only [option_rel_iff]
      constructor
      · intro hrel
        exact .object (fun k => (hrel k).1) fun k v w hv hw =>
          (hvalue hv hw).mp ((hrel k).2 v w hv hw)
      · intro hsame k
        cases hsame with
        | object hsome hcontent =>
          exact ⟨hsome k, fun v w hv hw => (hvalue hv hw).mpr (hcontent k v w hv hw)⟩
    | _ => cases hkind
  | @list l1 hl1 ih =>
    refine jsonEquals_iff_sameContent_of_kind fun hkind => ?_
    cases h2 with
    | @list l2 hl2 =>
      have helement : ∀ {i : Nat} {x y : Json Num}, l1[i]? = some x → l2[i]? = some y →
          (jsonEquals x y = true ↔ SameContent x y) := fun hx hy =>
        ih _ (List.mem_of_getElem? hx) (hl2 _ (List.mem_of_getElem? hy))
      rw [jsonEquals_list_eq, sameCells_iff]
      constructor
      · rintro ⟨hlen, hcells⟩
        exact .list hlen fun i x y hx hy => (helement hx hy).mp (hcells i x y hx hy)
      · intro hsame
        cases hsame with
        | list hlen hcells =>
          exact ⟨hlen, fun i x y hx hy => (helement hx hy).mpr (hcells i x y hx hy)⟩
    | _ => cases hkind
  | @string s1 =>
    refine jsonEquals_iff_sameContent_of_kind fun hkind => ?_
    cases h2 with
    | string =>
      rw [jsonEquals, sEquals, beq_iff_eq]
      refine ⟨.string, fun hsame => ?_⟩
      cases hsame with
      | string h => exact h
    | _ => cases hkind
  | number =>
    refine jsonEquals_iff_sameContent_of_kind fun hkind => ?_
    cases h2 with
    | number =>
      rw [jsonEquals]
      refine ⟨.number, fun hsame => ?_⟩
      cases hsame with
      | number h => exact h
    | _ => cases hkind
  | boolean =>
    refine jsonEquals_iff_sameContent_of_kind fun hkind => ?_
    cases h2 with
    | boolean =>
      rw [jsonEquals, beq_iff_eq]
      constructor
      · rintro rfl
        exact .boolean
      · rintro ⟨⟩
        rfl
    | _ => cases hkind
  | null =>
    refine jsonEquals_iff_sameContent_of_kind fun hkind => ?_
    cases h2 with
    | null => exact iff_of_true (by rw [jsonEquals]) .null
    | _ => cases hkind

/-! ## One tree -/

/--
What is compared where both arguments are one tree: in an object each value with itself, in a list
each element at an even position with the one behind it.
-/
inductive SelfEqual : Json Num → Prop
  | object {hm} : (∀ kv ∈ hmKvps hm, SelfEqual kv.value) → SelfEqual (.object hm)
  | list {l} : (∀ (k : Nat) (x y : Json Num), l[2 * k]? = some x → l[2 * k + 1]? = some y →
    SameContent x y) → SelfEqual (.list l)
  | string {s} : SelfEqual (.string s)
  | number {n} : SelfEqual (.number n)
  | boolean {b} : SelfEqual (.boolean b)
  | null : SelfEqual .null

/-- What a comparison of a tree with itself does. -/
def ComparesSelf (fuel : Nat) (d : MemTree Num) : Prop :=
  ∀ mem, InMemory mem d → d.handles.Nodup → ∃ b mem', jsonEqualsAt fuel d.ref d.ref mem
    = some (b, mem') ∧ Touches mem mem' d.handles ∧ (b = true ↔ SelfEqual d.tree)

open Classical in
/-- **One map**: each value is found under its key, and compared with itself. -/
theorem jsonEqualsAt_self_object {fuel a : Nat} {mem : JsonMem Num}
    {m : HashMapT Bytes (JsonRef Num)} {c : HashMap Bytes (MemTree Num)} (hinv : c.Inv)
    (ih : ∀ kv ∈ hmKvps c, ComparesSelf fuel kv.value) (h : mem.maps.load a = some m)
    (hm : m.hm = c.map MemTree.ref) (hc : ∀ kv ∈ hmKvps c, InMemory mem kv.value)
    {hs : List Handle} (hhs : hs = .map a :: (hmKvps c).flatMap fun kv => kv.value.handles)
    (hnodup : hs.Nodup) :
    ∃ b mem', hmEqualsAt mapsOf a a (jsonEqualsAt fuel) mem = some (b, mem') ∧
      Touches mem mem' hs ∧ (b = true ↔ SelfEqual (.object (c.map MemTree.tree))) := by
  have ha : Handle.map a ∈ hs := by simp [hhs]
  have hself : ∀ kv ∈ hmKvps c, hmGet c kv.key = some kv.value := fun kv hkv =>
    (hmGet_eq_some hinv _ _).mpr ⟨kv, hkv, hinv.refl _, rfl⟩
  obtain ⟨mem', hrun, htouch⟩ := hmEqualsAt_spec mapsOf MemTree.ref MemTree.ref c c hinv
    (fun d _ => decide (SelfEqual d.tree)) (jsonEqualsAt fuel) (fun mem' => Touches mem mem' hs)
    (fun mem' m m' hload hsame htouch => htouch.put_map ha hload hsame)
    (fun kv hkv v hget mem' htouch => by
      obtain rfl := Option.some.inj ((hself kv hkv).symm.trans hget)
      -- Each value is compared with itself, for its key is found at its own pair.
      have hsub := sublist_flatMap (f := fun kv : KeyVal Bytes (MemTree Num) => kv.value.handles) hkv
      have hbelow := List.Sublist.nodup (hsub.cons_cons _) (hhs ▸ hnodup)
      obtain ⟨hnot, hdisjoint⟩ := List.nodup_cons.mp hbelow
      obtain ⟨b, mem'', hrun, htouch', hb⟩ := ih kv hkv mem' ((hc _ hkv).touches htouch) hdisjoint
      obtain ⟨m', hm', -⟩ := htouch.map a m h
      refine ⟨mem'', ?_, htouch.trans (htouch'.mono ?_), ?_, ?_⟩
      · rw [hrun, Bool.eq_iff_iff.mpr (hb.trans (decide_eq_true_iff).symm)]
      · rw [hhs]
        exact fun x hx => List.mem_cons_of_mem _ (hsub.subset hx)
      · exact (htouch'.load_map hm' hnot).trans hm'.symm
      · exact (htouch'.load_map hm' hnot).trans hm'.symm)
    h hm h hm (Touches.refl mem hs)
  refine ⟨_, mem', hrun, htouch, ?_⟩
  rw [hmEquals_eq_true]
  constructor
  · rintro ⟨-, hvalues⟩
    refine .object ?_
    rw [hmKvps_map, List.forall_mem_map]
    intro kv hkv
    obtain ⟨v, -, heq⟩ := hvalues kv hkv
    exact decide_eq_true_iff.mp heq
  · rintro (hvalues | _)
    exact ⟨rfl, fun kv hkv =>
      ⟨kv.value, hself kv hkv, decide_eq_true_iff.mpr (forall_kvps_tree hvalues kv hkv)⟩⟩

/-- **One list**: neighbours are compared, which are two trees. -/
theorem jsonEqualsAt_self_list {fuel a : Nat} {mem : JsonMem Num} {L : ListT (JsonRef Num)}
    {cs : List (MemTree Num)} (ih : ∀ c1 ∈ cs, ∀ c2 ∈ cs, ComparesTrees fuel c1 c2)
    (hok : ∀ c ∈ cs, NoNaN c.tree) (h : mem.lists.load a = some L)
    (hL : L.Holds (cs.map MemTree.ref)) (hcs : ∀ c ∈ cs, InMemory mem c) {hs : List Handle}
    (hhs : hs = .list a :: cs.flatMap MemTree.handles) (hnodup : hs.Nodup) :
    ∃ b mem', lEquals listsOf a a (jsonEqualsAt fuel) mem = some (b, mem') ∧
      Touches mem mem' hs ∧ (b = true ↔ SelfEqual (.list (cs.map MemTree.tree))) := by
  have ha : Handle.list a ∈ hs := by simp [hhs]
  have hmem : ∀ c ∈ adjacent cs, c.1 ∈ cs ∧ c.2 ∈ cs := fun c hc =>
    ⟨(adjacent_sublist hc).subset (by simp), (adjacent_sublist hc).subset (by simp)⟩
  obtain ⟨mem', hrun, htouch⟩ := lEquals_spec_self MemTree.ref cs
    (fun d1 d2 => jsonEquals d1.tree d2.tree) (jsonEqualsAt fuel) (Touches.ignores mem ha)
    (fun c hc mem' htouch => by
      have hsub := (adjacent_sublist hc).flatMap MemTree.handles
      rw [List.flatMap_cons, List.flatMap_cons, List.flatMap_nil, List.append_nil] at hsub
      have hbelow := List.Sublist.nodup (hsub.cons_cons _) (hhs ▸ hnodup)
      obtain ⟨hnot, hdisjoint⟩ := List.nodup_cons.mp hbelow
      obtain ⟨hc1, hc2⟩ := hmem c hc
      obtain ⟨mem'', hrun, htouch'⟩ := ih c.1 hc1 c.2 hc2 mem' ((hcs _ hc1).touches htouch)
        ((hcs _ hc2).touches htouch) hdisjoint
      obtain ⟨L', hL', -⟩ := htouch.list a L h
      refine ⟨mem'', hrun, htouch.trans (htouch'.mono ?_),
        (htouch'.load_list hL' hnot).trans hL'.symm⟩
      rw [hhs]
      exact fun x hx => List.mem_cons_of_mem _ (hsub.subset hx))
    h hL (Touches.refl mem hs)
  refine ⟨_, mem', hrun, htouch, ?_⟩
  -- What is compared are the cells 0 and 1, 2 and 3, and so on.
  have hall : ((adjacent cs).all fun c => jsonEquals c.1.tree c.2.tree) = true ↔
      AdjacentCells jsonEquals (cs.map MemTree.tree) := by
    rw [← adjacentCells_iff, adjacent_map, List.all_map]
    rfl
  have hcontent : ∀ {k : Nat} {x y : Json Num}, (cs.map MemTree.tree)[2 * k]? = some x →
      (cs.map MemTree.tree)[2 * k + 1]? = some y → (jsonEquals x y = true ↔ SameContent x y) := by
    intro k x y hx hy
    obtain ⟨c, hc, rfl⟩ := List.mem_map.mp (List.mem_of_getElem? hx)
    obtain ⟨c', hc', rfl⟩ := List.mem_map.mp (List.mem_of_getElem? hy)
    exact jsonEquals_iff_sameContent (hok c hc) (hok c' hc')
  rw [hall]
  constructor
  · intro hcells
    exact .list fun k x y hx hy => (hcontent hx hy).mp (hcells k x y hx hy)
  · rintro (_ | hcells)
    exact fun k x y hx hy => (hcontent hx hy).mpr (hcells k x y hx hy)

/-- **A tree and itself.** -/
theorem jsonEqualsAt_self : ∀ (fuel : Nat) {d : MemTree Num}, NoNaN d.tree →
    sizeOf d.tree < fuel → ComparesSelf fuel d
  | fuel + 1, d, hok, hfuel => by
    intro mem h hnodup
    cases h with
    | @object a m c hload hm hc =>
      cases hok with
      | object hinv _ _ hok =>
      refine jsonEqualsAt_self_object (HashMap.inv_of_map hinv) ?_ hload hm hc rfl hnodup
      intro kv hkv
      have hsize : sizeOf kv.value.tree < sizeOf (Json.object (c.map MemTree.tree)) :=
        forall_kvps_tree (P := fun json => sizeOf json < _) (fun kv hkv => sizeOf_value_lt hkv)
          kv hkv
      exact jsonEqualsAt_self fuel (forall_kvps_tree hok kv hkv) (by dsimp only at hfuel; omega)
    | @list a L cs hload hL hcs =>
      cases hok with
      | list hok =>
      have hok' : ∀ c ∈ cs, NoNaN c.tree := fun c hc => hok _ (List.mem_map_of_mem hc)
      refine jsonEqualsAt_self_list ?_ hok' hload hL hcs rfl hnodup
      intro c1 hc1 c2 hc2
      have hsize : sizeOf c1.tree < sizeOf (Json.list (cs.map MemTree.tree)) :=
        sizeOf_element_lt (List.mem_map_of_mem hc1)
      exact jsonEqualsAt_spec fuel (hok' c1 hc1) (hok' c2 hc2) (by dsimp only at hfuel; omega)
    | @string s => exact ⟨_, mem, rfl, .refl mem _, iff_of_true (beq_self_eq_true _) .string⟩
    | number =>
      cases hok with
      | number hn => exact ⟨_, mem, rfl, .refl mem _, iff_of_true hn .number⟩
    | boolean => exact ⟨_, mem, rfl, .refl mem _, iff_of_true (beq_self_eq_true _) .boolean⟩
    | null => exact ⟨_, mem, rfl, .refl mem _, iff_of_true rfl .null⟩

end Equality

/--
**When a comparison through handles is one of contents.** Two list objects are always compared
position by position, an object and itself only at neighbouring positions. So a tree equals itself
if the lists in it that are compared with themselves have equal neighbours.
-/
theorem handles_compare_contents_iff {α Num : Type} [BEq Num] (eq : α → α → Bool)
    (hrefl : ∀ x, eq x x = true) :
    (∀ (mem : Heap (ListT α)) (l1 l2 : Nat) (L1 L2 : ListT α) (xs ys : List α),
      mem.load l1 = some L1 → L1.Holds xs → mem.load l2 = some L2 → L2.Holds ys →
      ∃ b mem', lEquals .whole l1 l2 (fun x y => pure (eq x y)) mem = some (b, mem') ∧
        ((b = true ↔ SameCells eq xs ys) ↔ l1 ≠ l2 ∨ AdjacentCells eq xs)) ∧
    ∀ (mem : JsonMem Num) (d : MemTree Num), InMemory mem d →
      d.handles.Nodup → NoNaN d.tree → ∀ fuel > sizeOf d.tree,
      ∃ b mem', jsonEqualsAt fuel d.ref d.ref mem = some (b, mem') ∧
        (b = true ↔ SelfEqual d.tree) := by
  refine ⟨fun mem l1 l2 L1 L2 xs ys h1 hL1 h2 hL2 => lEquals_iff hrefl h1 hL1 h2 hL2, ?_⟩
  intro mem d h hnodup hok fuel hfuel
  obtain ⟨b, mem', hrun, -, hb⟩ := jsonEqualsAt_self fuel hok hfuel mem h hnodup
  exact ⟨b, mem', hrun, hb⟩

/-! ### Lists of two cells -/

/-- An array list after two pushes. -/
def pairList {α : Type} (x y : α) : ListT α := .array ⟨2, 2, [some x, some y], 0⟩

theorem pairList_holds {α : Type} (x y : α) : (pairList x y).Holds [x, y] :=
  ⟨rfl, rfl, Nat.two_pos, List.prefix_refl _⟩

/-- A JSON list of two numbers, alone in memory. -/
def pairMem (n n' : Nat) : JsonMem Nat where
  lists := (Heap.empty.alloc (pairList (.number n) (.number n'))).2
  maps := .empty

theorem handles_compare_contents_iff_pairs :
    (∃ b mem', lEquals .whole 0 0 (fun x y => pure (x == y)) (Heap.empty.alloc (pairList 3 3)).2
        = some (b, mem') ∧ ((b = true ↔ SameCells (· == ·) [3, 3] [3, 3]) ↔
          0 ≠ 0 ∨ AdjacentCells (· == ·) [3, 3])) ∧
    ∃ b mem', jsonEqualsAt 30 (.list 0) (.list 0) (pairMem 3 3) = some (b, mem') ∧
      (b = true ↔ SelfEqual (.list [.number 3, .number 3])) := by
  have hboth := @handles_compare_contents_iff Nat Nat _ (· == ·) beq_self_eq_true
  refine ⟨hboth.1 _ 0 0 (pairList 3 3) (pairList 3 3) _ _ rfl (pairList_holds 3 3) rfl
    (pairList_holds 3 3), ?_⟩
  let leaf : MemTree Nat := ⟨.number 3, .number 3, []⟩
  have hleaf : InMemory (pairMem 3 3) leaf := .number
  refine hboth.2 (pairMem 3 3)
    ⟨.list 0, .list ([leaf, leaf].map MemTree.tree), .list 0 :: [leaf, leaf].flatMap MemTree.handles⟩
    (.list rfl (pairList_holds _ _) (by simp [hleaf])) (by decide) (.list ?_) 30 ?_
  · intro json hjson
    obtain ⟨c, hc, rfl⟩ := List.mem_map.mp hjson
    obtain rfl : c = leaf := by simpa using hc
    exact .number rfl
  · decide

/-- A list of 1 and 2 is not equal to itself, and neither is the JSON list. -/
theorem not_handles_compare_contents :
    (runCalls lCall [.push 1, .push 2] (newList ⟨0, none⟩ .arrayList)
        = some ([.done, .done], pairList 1 2) ∧
      (∃ mem', lEquals .whole 0 0 (fun x y => pure (x == y)) (Heap.empty.alloc (pairList 1 2)).2
        = some (false, mem')) ∧ SameCells (· == ·) [1, 2] [1, 2]) ∧
    (∃ mem', jsonEqualsAt 30 (.list 0) (.list 0) (pairMem 1 2) = some (false, mem')) ∧
      jsonEquals (.list [.number 1, .number 2]) (.list [.number 1, .number 2]) = true :=
  ⟨⟨rfl, ⟨_, rfl⟩, SameCells.refl beq_self_eq_true _⟩, ⟨_, rfl⟩, by
    simp [jsonEquals]⟩

end Chlibs.Chjson

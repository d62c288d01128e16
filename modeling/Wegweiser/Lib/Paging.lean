/-
Listings read page by page.

A page holds at most so many rows, and a cursor for the next one where there are more.
-/
import Wegweiser.Lib.Sorted

namespace Pages

open List

universe u v w

variable {ε : Type u} {κ : Type v} {α : Type w}

structure Page (κ : Type v) (α : Type w) where
  items : List α
  next : κ

/-- The rows of a page, of those that were fetched: where that is one too many, there is a next
page. -/
def cutPage (start : κ) (cursorOf : α → κ) (limit : Nat) (fetched : List α) : Page κ α :=
  if limit < fetched.length then
    ⟨fetched.take limit, fetched[limit - 1]?.elim start cursorOf⟩
  else ⟨fetched, start⟩

/-- The rows of a page and of those behind it, each asked for with the cursor of the one before.
Nothing is said of a listing that takes more pages than the fuel is for. -/
def follow [DecidableEq κ] (start : κ) (page : κ → Except ε (Page κ α)) : Nat → κ → Except ε (Option (List α))
  | 0, _ => .ok none
  | fuel + 1, c =>
    match page c with
    | .error e => .error e
    | .ok p =>
      if p.next = start then .ok (some p.items)
      else (follow start page fuel p.next).map (Option.map (p.items ++ ·))

variable {start : κ} {cursorOf : α → κ} {limit : Nat} {rows : List α}

theorem cutPage_last (h : rows.length ≤ limit) :
    cutPage start cursorOf limit (rows.take (limit + 1)) = ⟨rows, start⟩ := by
  rw [take_of_length_le (by omega), cutPage, if_neg (by omega)]

theorem take_through (front : List α) (a : α) (back : List α) :
    (front ++ a :: back).take (front.length + 1) = front ++ [a] := by
  rw [take_append, take_of_length_le (Nat.le_succ _), Nat.add_sub_cancel_left]
  rfl

theorem cutPage_more {front back : List α} {a : α} (hfront : front.length + 1 = limit)
    (hback : back ≠ []) :
    cutPage start cursorOf limit ((front ++ a :: back).take (limit + 1)) =
      ⟨front ++ [a], cursorOf a⟩ := by
  have hlength : 0 < back.length := length_pos_iff.mpr hback
  have htake : (front ++ a :: back).take (limit + 1) = front ++ a :: back.take 1 := by
    rw [← hfront, take_append, take_of_length_le (by omega),
      show front.length + 1 + 1 - front.length = 1 + 1 by omega, take_succ_cons]
  have hmany : limit < (front ++ a :: back.take 1).length := by
    rw [length_append, length_cons, length_take]
    omega
  rw [htake, cutPage, if_pos hmany, ← hfront, take_through]
  simp

theorem split_page (hlimit : 0 < limit) (hmore : limit < rows.length) :
    ∃ front a back, rows = front ++ a :: back ∧ front.length + 1 = limit ∧ back ≠ [] := by
  have hlt : limit - 1 < rows.length := by omega
  refine ⟨rows.take (limit - 1), rows[limit - 1], rows.drop limit, ?_, ?_, ?_⟩
  · conv_lhs => rw [← take_append_drop (limit - 1) rows, drop_eq_getElem_cons hlt]
    rw [Nat.sub_add_cancel hlimit]
  · rw [length_take]
    omega
  · rw [Ne, drop_eq_nil_iff]
    omega

variable [DecidableEq κ]

theorem follow_eq (page : κ → Except ε (Page κ α)) (hlimit : 0 < limit)
    (hstart : page start = .ok (cutPage start cursorOf limit (rows.take (limit + 1))))
    (hnext : ∀ front a back, rows = front ++ a :: back → limit ≤ front.length + 1 → back ≠ [] →
      cursorOf a ≠ start ∧
        page (cursorOf a) = .ok (cutPage start cursorOf limit (back.take (limit + 1))))
    {fuel : Nat} (hfuel : rows.length < fuel) : follow start page fuel start = .ok (some rows) := by
  -- what is left of the listing behind any cursor is followed to its end
  have hrun : ∀ fuel before after c, rows = before ++ after → after.length < fuel →
      page c = .ok (cutPage start cursorOf limit (after.take (limit + 1))) →
      follow start page fuel c = .ok (some after) := by
    intro fuel
    induction fuel with
    | zero => exact fun _ _ _ _ hlt => absurd hlt (Nat.not_lt_zero _)
    | succ fuel ih =>
      intro before after c hrows hlt hpage
      rw [follow, hpage]
      by_cases hlast : after.length ≤ limit
      · rw [cutPage_last hlast]
        exact if_pos rfl
      · obtain ⟨front, a, back, rfl, hfront, hback⟩ := split_page hlimit (Nat.lt_of_not_le hlast)
        obtain ⟨hne, hthen⟩ := hnext (before ++ front) a back
          (by rw [hrows, append_assoc]) (by rw [length_append]; omega) hback
        have hrest := ih (before ++ front ++ [a]) back (cursorOf a) (by simp [hrows])
          (by simp at hlt; omega) hthen
        rw [cutPage_more hfront hback]
        change (if cursorOf a = start then _ else _) = _
        rw [if_neg hne, hrest]
        simp [Except.map]
  exact hrun fuel [] rows start rfl hfuel hstart

theorem follow_cut (page : κ → Except ε (Page κ α)) (hlimit : 0 < limit)
    (hstart : page start = .ok (cutPage start cursorOf limit (rows.take (limit + 1))))
    (hmore : limit < rows.length)
    (hnext : ∀ a, rows[limit - 1]? = some a → cursorOf a ≠ start ∧ page (cursorOf a) = .ok ⟨[], start⟩)
    {fuel : Nat} (hfuel : 1 < fuel) :
    follow start page fuel start = .ok (some (rows.take limit)) := by
  obtain ⟨front, a, back, rfl, hfront, hback⟩ := split_page hlimit hmore
  obtain ⟨hne, hthen⟩ := hnext a (by simp [← hfront])
  obtain ⟨fuel, rfl⟩ : ∃ n, fuel = n + 1 + 1 := ⟨fuel - 2, by omega⟩
  rw [follow, hstart, cutPage_more hfront hback]
  change (if cursorOf a = start then _ else _) = _
  rw [if_neg hne, follow, hthen]
  change (Except.map _ (if start = start then Except.ok (some []) else _)) = _
  rw [if_pos rfl, ← hfront, take_through]
  simp [Except.map]

section Sorted

open Rows

variable {β : Type w} {σ : Type w} [LinearOrder σ] {key : β → σ} {l : List β} {p : β → Bool}

theorem follow_sortOn_map (page : κ → Except ε (Page κ α)) (f : β → α) (hnodup : (l.map key).Nodup)
    (hlimit : 0 < limit) (hstart : page start = .ok (cutPage start cursorOf limit
      (((sortOn key (l.filter p)).take (limit + 1)).map f)))
    (hnext : ∀ front a back, sortOn key (l.filter p) = front ++ a :: back →
      limit ≤ front.length + 1 → back ≠ [] → cursorOf (f a) ≠ start ∧
        ∃ after : β → Bool, (∀ b, after b = true ↔ key a < key b) ∧
          page (cursorOf (f a)) = .ok (cutPage start cursorOf limit
            (((sortOn key (l.filter fun b => after b && p b)).take (limit + 1)).map f)))
    {fuel : Nat} (hfuel : l.length < fuel) :
    follow start page fuel start = .ok (some ((sortOn key (l.filter p)).map f)) := by
  have hinj : ∀ a ∈ l.filter p, ∀ b ∈ l.filter p, key a = key b → a = b := by
    intro a ha b hb
    exact inj_on_of_nodup_map hnodup (mem_of_mem_filter ha) (mem_of_mem_filter hb)
  rw [map_take] at hstart
  refine follow_eq page hlimit hstart (fun front a back hrows hlong hmore => ?_) ?_
  · obtain ⟨front, rest, hsplit, rfl, hrest⟩ := map_eq_append_iff.mp hrows
    obtain ⟨a, back, rfl, rfl, rfl⟩ := map_eq_cons_iff.mp hrest
    obtain ⟨hne, after, hafter, hpage⟩ := hnext front a back hsplit (by simpa using hlong)
      (by simpa using hmore)
    refine ⟨hne, ?_⟩
    have hback : sortOn key (l.filter fun b => after b && p b) = back := by
      have hdecide : after = fun b => decide (key a < key b) := by
        funext b
        rw [Bool.eq_iff_iff, hafter, decide_eq_true_iff]
      rw [← filter_filter, ← filter_sortOn hinj, hdecide]
      exact filter_after (hnodup.sublist (filter_sublist.map key)) hsplit
    rw [hpage, hback, map_take]
  · rw [length_map, (sortOn_perm key _).length_eq]
    exact (length_filter_le p l).trans_lt hfuel

theorem follow_sortOn {cursorOf : β → κ} (page : κ → Except ε (Page κ β))
    (hnodup : (l.map key).Nodup) (hlimit : 0 < limit) (hstart : page start =
      .ok (cutPage start cursorOf limit ((sortOn key (l.filter p)).take (limit + 1))))
    (hnext : ∀ front a back, sortOn key (l.filter p) = front ++ a :: back →
      limit ≤ front.length + 1 → back ≠ [] → cursorOf a ≠ start ∧
        ∃ after : β → Bool, (∀ b, after b = true ↔ key a < key b) ∧
          page (cursorOf a) = .ok (cutPage start cursorOf limit
            ((sortOn key (l.filter fun b => after b && p b)).take (limit + 1))))
    {fuel : Nat} (hfuel : l.length < fuel) :
    follow start page fuel start = .ok (some (sortOn key (l.filter p))) := by
  have hshown : page start = .ok (cutPage start cursorOf limit
      (((sortOn key (l.filter p)).take (limit + 1)).map id)) := by rw [map_id, hstart]
  have hrun := follow_sortOn_map page id hnodup hlimit hshown
    (fun front a back hrows hlong hmore => ?_) hfuel
  · rwa [map_id] at hrun
  · obtain ⟨hne, after, hafter, hpage⟩ := hnext front a back hrows hlong hmore
    exact ⟨hne, after, hafter, by rw [map_id]; exact hpage⟩

end Sorted

end Pages

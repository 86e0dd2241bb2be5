import ArrayExpr.Proofs.ReadAtoms

/-!
Reading back what is written. Data without doubles, in which keys do not repeat and whole numbers have
no more digits than can be read, is legible: its text is read as that data (`read_write`), and is one
line of plain ASCII (`Legible.all_isPlain`).
-/

namespace ArrayExpr.Json

/-! ### Containers -/

def text (j : Json) : List Char :=
  (write j).toList

def entryText (e : String × Json) : List Char :=
  (writeString e.1).toList ++ ':' :: ' ' :: text e.2

def joined (texts : List (List Char)) : List Char :=
  [',', ' '].intercalate texts

theorem writeItems_eq_map (items : List Json) : writeItems items = items.map write := by
  induction items with
  | nil => rfl
  | cons j items ih => rw [writeItems, ih, List.map_cons]

theorem writeEntries_eq_map (entries : List (String × Json)) :
    writeEntries entries = entries.map fun e => writeString e.1 ++ ": " ++ write e.2 := by
  induction entries with
  | nil => rfl
  | cons e entries ih =>
      obtain ⟨k, j⟩ := e
      rw [writeEntries, ih, List.map_cons]

theorem text_list (items : List Json) :
    text (.list items) = '[' :: (joined (items.map text) ++ [']']) := by
  rw [text, write, String.toList_append, String.toList_append, String.toList_intercalate,
    writeItems_eq_map, List.map_map]
  rfl

theorem text_object (entries : List (String × Json)) :
    text (.object entries) = '\x7b' :: (joined (entries.map entryText) ++ ['\x7d']) := by
  rw [text, write, String.toList_append, String.toList_append, String.toList_intercalate,
    writeEntries_eq_map, List.map_map]
  have htexts : entries.map (String.toList ∘ fun e => writeString e.1 ++ ": " ++ write e.2) =
      entries.map entryText := by
    refine List.map_congr_left fun e _ => ?_
    rw [Function.comp_apply, String.toList_append, String.toList_append, List.append_assoc]
    rfl
  rw [htexts]
  rfl

/-- Data that its text is read back as, containers nested at most so deep: without doubles, with whole
numbers that can be read, and without keys that occur twice. -/
inductive Legible : Nat → Json → Prop where
  | null (depth : Nat) : Legible depth .null
  | bool (depth : Nat) (b : Bool) : Legible depth (.bool b)
  | int (depth : Nat) {n : Int} : Fits n → Legible depth (.int n)
  | str (depth : Nat) (s : String) : Legible depth (.str s)
  | list {depth : Nat} {items : List Json} : (∀ j ∈ items, Legible depth j) →
      Legible (depth + 1) (.list items)
  | object {depth : Nat} {entries : List (String × Json)} : (entries.map Prod.fst).Nodup →
      (∀ e ∈ entries, Legible depth e.2) → Legible (depth + 1) (.object entries)

def opens (c : Char) : Bool :=
  c.isDigit || c == '-' || c == '"' || c == 'n' || c == 't' || c == 'f' || c == '[' || c == '\x7b'

/-- A text that a value starts. -/
def Opened (cs : List Char) : Prop :=
  ∃ c rest, cs = c :: rest ∧ opens c = true

theorem Opened.append {cs : List Char} (h : Opened cs) (rest : List Char) : Opened (cs ++ rest) := by
  obtain ⟨c, more, rfl, hc⟩ := h
  exact ⟨c, more ++ rest, rfl, hc⟩

theorem opened_writeString (s : String) : Opened (writeString s).toList := by
  rw [toList_writeString]
  exact ⟨_, _, rfl, rfl⟩

theorem Legible.opened {depth : Nat} {j : Json} (h : Legible depth j) : Opened (text j) := by
  cases h with
  | null => exact ⟨_, _, rfl, rfl⟩
  | bool _ b => cases b <;> exact ⟨_, _, rfl, rfl⟩
  | @int _ n =>
      obtain ⟨c, cs, htext, hc⟩ := exists_toList_intText n
      refine ⟨c, cs, htext, ?_⟩
      rcases hc with rfl | hc
      · rfl
      · simp [opens, hc]
  | str _ s => exact opened_writeString s
  | @list _ items => exact ⟨_, _, text_list items, rfl⟩
  | @object _ entries => exact ⟨_, _, text_object entries, rfl⟩

/-- A value starts with none of the characters that stand between values. -/
theorem Opened.ne {cs : List Char} (h : Opened cs) {c : Char} {rest : List Char} (hcs : cs = c :: rest)
    (d : Char) (hd : opens d = false) : c ≠ d := by
  obtain ⟨c', rest', heq, hc⟩ := h
  obtain ⟨rfl, rfl⟩ := List.cons.inj (hcs.symm.trans heq)
  rintro rfl
  rw [hd] at hc
  cases hc

theorem Opened.skipSpace {cs : List Char} (h : Opened cs) : skipSpace cs = cs := by
  obtain ⟨c, rest, hcs, -⟩ := id h
  have hspace : isSpace c = false := by
    simp [isSpace, h.ne hcs ' ' rfl, h.ne hcs '\t' rfl, h.ne hcs '\n' rfl, h.ne hcs '\r' rfl]
  rw [hcs, Json.skipSpace, List.dropWhile_cons, hspace]
  rfl

/-- What is no container is read as such at every depth. -/
theorem value_of_atom {c : Char} (hlist : c ≠ '[') (hobject : c ≠ '\x7b') (depth : Nat)
    (cs : List Char) : value depth (c :: cs) = atom (c :: cs) := by
  cases depth
  all_goals
    unfold value
    split
    · rename_i heq
      cases heq
      cases hlist rfl
    · rename_i heq
      cases heq
      cases hobject rfl
    · rfl

theorem joined_singleton (t : List Char) : joined [t] = t :=
  List.intercalate_singleton

theorem joined_cons_cons (t u : List Char) (ts : List (List Char)) :
    joined (t :: u :: ts) = t ++ ',' :: ' ' :: joined (u :: ts) := by
  rw [joined, List.intercalate_cons_cons, List.append_assoc]
  rfl

theorem Opened.joined {t : List Char} (h : Opened t) (ts : List (List Char)) :
    Opened (joined (t :: ts)) := by
  cases ts with
  | nil => rwa [joined_singleton]
  | cons u ts =>
      rw [joined_cons_cons]
      exact h.append _

theorem length_le_joined {ts : List (List Char)} (h : ∀ t ∈ ts, Opened t) :
    ts.length ≤ (joined ts).length := by
  induction ts with
  | nil => exact Nat.zero_le _
  | cons t ts ih =>
      obtain ⟨c, rest, rfl, -⟩ := h t List.mem_cons_self
      cases ts with
      | nil => simp [joined_singleton]
      | cons u ts =>
          have hrest := ih fun t' ht' => h t' (List.mem_cons_of_mem _ ht')
          simp only [joined_cons_cons, List.length_append, List.length_cons] at hrest ⊢
          omega

theorem endsNumber_cons {c : Char} (h : (c.isDigit || c == '.' || c == 'e' || c == 'E') = false)
    (cs : List Char) : EndsNumber (c :: cs) := by
  rintro _ _ ⟨⟩
  simpa [and_assoc] using h

/-- A text is read as a value whatever follows that is no part of a number. -/
def ReadsAs (depth : Nat) (j : Json) : Prop :=
  ∀ rest, EndsNumber rest → value depth (text j ++ rest) = .ok (j, rest)

section Loops

variable {value : List Char → Except Stop (Json × List Char)} {fuel : Nat} {cs more out : List Char}
  {j : Json}

theorem items_last (h : value cs = .ok (j, ']' :: out)) :
    items value (fuel + 1) cs = .ok ([j], out) := by
  rw [items, h]
  rfl

theorem items_more {js : List Json} (h : value cs = .ok (j, ',' :: ' ' :: more))
    (hskip : skipSpace more = more) (hmore : items value fuel more = .ok (js, out)) :
    items value (fuel + 1) cs = .ok (j :: js, out) := by
  have hblank : skipSpace (' ' :: more) = more := hskip
  have hcomma : skipSpace (',' :: ' ' :: more) = ',' :: ' ' :: more := rfl
  rw [items, h]
  simp only [bind, Except.bind, hcomma, hblank, hmore]
  rfl

theorem entries_last {s : String} (hskip : skipSpace cs = cs) (h : value cs = .ok (j, '\x7d' :: out)) :
    entries value (fuel + 1) ((writeString s).toList ++ ':' :: ' ' :: cs) = .ok ([(s, j)], out) := by
  have hblank : skipSpace (' ' :: cs) = cs := hskip
  have hcolon : skipSpace (':' :: ' ' :: cs) = ':' :: ' ' :: cs := rfl
  rw [toList_writeString, List.cons_append, List.append_assoc, entries]
  simp only [List.singleton_append, string_writeString, bind, Except.bind, hcolon, hblank, h]
  rfl

theorem entries_more {s : String} {es : List (String × Json)} (hskip : skipSpace cs = cs)
    (h : value cs = .ok (j, ',' :: ' ' :: more)) (hskip' : skipSpace more = more)
    (hmore : entries value fuel more = .ok (es, out)) :
    entries value (fuel + 1) ((writeString s).toList ++ ':' :: ' ' :: cs) = .ok ((s, j) :: es, out) := by
  have hblank : skipSpace (' ' :: cs) = cs := hskip
  have hblank' : skipSpace (' ' :: more) = more := hskip'
  have hcolon : skipSpace (':' :: ' ' :: cs) = ':' :: ' ' :: cs := rfl
  have hcomma : skipSpace (',' :: ' ' :: more) = ',' :: ' ' :: more := rfl
  rw [toList_writeString, List.cons_append, List.append_assoc, entries]
  simp only [List.singleton_append, string_writeString, bind, Except.bind, hcolon, hblank, h, hcomma,
    hblank', hmore]
  rfl

end Loops

theorem items_joined {depth : Nat} (first : Json) (more : List Json)
    (hopened : ∀ j ∈ first :: more, Opened (text j)) (hreads : ∀ j ∈ first :: more, ReadsAs depth j)
    {fuel : Nat} (hfuel : more.length ≤ fuel) (out : List Char) :
    items (value depth) (fuel + 1) (joined ((first :: more).map text) ++ ']' :: out) =
      .ok (first :: more, out) := by
  -- An item is followed by a comma or by the bracket, and neither of them goes on a number.
  induction more generalizing first fuel with
  | nil =>
      rw [List.map_cons, List.map_nil, joined_singleton]
      exact items_last (hreads first List.mem_cons_self _ (endsNumber_cons rfl out))
  | cons second more ih =>
      obtain ⟨fuel, rfl⟩ : ∃ k, fuel = k + 1 := ⟨fuel - 1, by simp at hfuel; omega⟩
      have hmore := ih second (fun j hj => hopened j (List.mem_cons_of_mem _ hj))
        (fun j hj => hreads j (List.mem_cons_of_mem _ hj)) (Nat.le_of_succ_le_succ hfuel)
      have hsecond := (hopened second (by simp)).joined (more.map text)
      rw [List.map_cons, List.map_cons, joined_cons_cons, List.append_assoc]
      exact items_more (hreads first List.mem_cons_self _ (endsNumber_cons rfl _))
        (hsecond.append _).skipSpace hmore

theorem opened_entryText (e : String × Json) : Opened (entryText e) :=
  (opened_writeString e.1).append _

theorem entries_joined {depth : Nat} (first : String × Json) (more : List (String × Json))
    (hopened : ∀ e ∈ first :: more, Opened (text e.2))
    (hreads : ∀ e ∈ first :: more, ReadsAs depth e.2)
    {fuel : Nat} (hfuel : more.length ≤ fuel) (out : List Char) :
    entries (value depth) (fuel + 1) (joined ((first :: more).map entryText) ++ '\x7d' :: out) =
      .ok (first :: more, out) := by
  induction more generalizing first fuel with
  | nil =>
      have hfirst := hopened first List.mem_cons_self
      rw [List.map_cons, List.map_nil, joined_singleton, entryText, List.append_assoc]
      exact entries_last (hfirst.append _).skipSpace
        (hreads first List.mem_cons_self _ (endsNumber_cons rfl out))
  | cons second more ih =>
      obtain ⟨fuel, rfl⟩ : ∃ k, fuel = k + 1 := ⟨fuel - 1, by simp at hfuel; omega⟩
      have hmore := ih second (fun e he => hopened e (List.mem_cons_of_mem _ he))
        (fun e he => hreads e (List.mem_cons_of_mem _ he)) (Nat.le_of_succ_le_succ hfuel)
      have hfirst := hopened first List.mem_cons_self
      have hsecond := (opened_entryText second).joined (more.map entryText)
      rw [List.map_cons, List.map_cons, joined_cons_cons, entryText, List.append_assoc, List.append_assoc]
      exact entries_more (hfirst.append _).skipSpace
        (hreads first List.mem_cons_self _ (endsNumber_cons rfl _)) (hsecond.append _).skipSpace hmore

theorem insert_of_not_mem {key : String} (j : Json) {entries : List (String × Json)}
    (h : key ∉ entries.map Prod.fst) : insert key j entries = entries ++ [(key, j)] := by
  induction entries with
  | nil => rfl
  | cons e entries ih =>
      obtain ⟨k, v⟩ := e
      have hne : (k == key) = false := by
        refine beq_false_of_ne ?_
        rintro rfl
        exact h List.mem_cons_self
      rw [insert, hne, ih fun hmem => h (List.mem_cons_of_mem _ hmem)]
      rfl

/-- Entries whose keys do not repeat are collected as they are. -/
theorem collect_of_nodup {entries : List (String × Json)} (h : (entries.map Prod.fst).Nodup) :
    collect entries = entries := by
  have hfold : ∀ taken : List (String × Json), ((taken ++ entries).map Prod.fst).Nodup →
      entries.foldl (fun es p => insert p.1 p.2 es) taken = taken ++ entries := by
    clear h
    induction entries with
    | nil => simp
    | cons e entries ih =>
        intro taken htaken
        have hnew : e.1 ∉ taken.map Prod.fst := by
          rw [List.map_append, List.map_cons, List.nodup_append] at htaken
          exact fun hmem => htaken.2.2 _ hmem _ List.mem_cons_self rfl
        rw [List.foldl_cons, insert_of_not_mem e.2 hnew, ih, List.append_assoc]
        · rfl
        · rwa [List.append_assoc]
  exact hfold [] h

theorem value_list {depth : Nat} {cs out : List Char} {js : List Json} (hcs : Opened cs)
    (h : items (value depth) (cs.length + 1) cs = .ok (js, out)) :
    value (depth + 1) ('[' :: cs) = .ok (.list js, out) := by
  unfold value
  simp only [hcs.skipSpace]
  split
  · exact absurd rfl (hcs.ne rfl ']' rfl)
  · rw [h]
    rfl

theorem value_object {depth : Nat} {cs out : List Char} {es : List (String × Json)} (hcs : Opened cs)
    (h : entries (value depth) (cs.length + 1) cs = .ok (es, out)) :
    value (depth + 1) ('\x7b' :: cs) = .ok (.object (collect es), out) := by
  unfold value
  simp only [hcs.skipSpace]
  split
  · exact absurd rfl (hcs.ne rfl '\x7d' rfl)
  · rw [h]
    rfl

theorem readsAs_list {depth : Nat} {items : List Json} (hopened : ∀ j ∈ items, Opened (text j))
    (hreads : ∀ j ∈ items, ReadsAs depth j) : ReadsAs (depth + 1) (.list items) := by
  intro rest _
  rw [text_list, List.cons_append, List.append_assoc]
  cases items with
  | nil => rfl
  | cons first more =>
      have hfuel := length_le_joined (List.forall_mem_map.mpr hopened)
      have hfirst := (hopened first List.mem_cons_self).joined (more.map text)
      refine value_list (hfirst.append _) (items_joined first more hopened hreads ?_ rest)
      rw [List.length_map, List.length_cons] at hfuel
      rw [List.length_append]
      omega

theorem readsAs_object {depth : Nat} {entries : List (String × Json)}
    (hkeys : (entries.map Prod.fst).Nodup) (hopened : ∀ e ∈ entries, Opened (text e.2))
    (hreads : ∀ e ∈ entries, ReadsAs depth e.2) : ReadsAs (depth + 1) (.object entries) := by
  intro rest _
  rw [text_object, List.cons_append, List.append_assoc]
  cases entries with
  | nil => rfl
  | cons first more =>
      have hfuel : (first :: more).length ≤ (joined ((first :: more).map entryText)).length := by
        rw [← List.length_map entryText]
        exact length_le_joined (List.forall_mem_map.mpr fun e _ => opened_entryText e)
      have hfirst := (opened_entryText first).joined (more.map entryText)
      have hread := value_object (hfirst.append ('\x7d' :: rest))
        (entries_joined first more hopened hreads (by
          rw [List.length_cons] at hfuel
          rw [List.length_append, ← List.map_cons]
          omega) rest)
      rwa [collect_of_nodup hkeys] at hread

theorem readsAs_str (depth : Nat) (s : String) : ReadsAs depth (.str s) := by
  intro rest _
  rw [text, write, toList_writeString, List.cons_append, value_of_atom (by decide) (by decide), atom,
    List.append_assoc, List.singleton_append, string_writeString]
  rfl

theorem readsAs_int (depth : Nat) {n : Int} (hn : Fits n) : ReadsAs depth (.int n) := by
  intro rest hrest
  rw [← atom_intText hn hrest, text, write]
  obtain ⟨c, cs, htext, hc⟩ := exists_toList_intText n
  rw [htext]
  refine value_of_atom ?_ ?_ depth (cs ++ rest)
  all_goals
    rintro rfl
    rcases hc with hc | hc <;> cases hc

/-- The text of legible data is read as that data. -/
theorem Legible.readsAs {depth : Nat} {j : Json} (h : Legible depth j) : ReadsAs depth j := by
  induction h with
  | null depth => exact fun rest _ => value_of_atom (by decide) (by decide) depth _
  | bool depth b =>
      intro rest _
      cases b <;> exact value_of_atom (by decide) (by decide) depth _
  | int depth hn => exact readsAs_int depth hn
  | str depth s => exact readsAs_str depth s
  | list hitems ih => exact readsAs_list (fun j hj => (hitems j hj).opened) ih
  | object hkeys hentries ih => exact readsAs_object hkeys (fun e he => (hentries e he).opened) ih

/-- **What is written is read back.** -/
theorem read_write {j : Json} (h : Legible nestingLimit j) : read (write j).toList = .ok j := by
  have hvalue : value nestingLimit (text j) = .ok (j, []) := by
    rw [← h.readsAs [] (by rintro _ _ ⟨⟩), List.append_nil]
  show read (text j) = .ok j
  unfold read
  split
  · rename_i heq
    exact absurd rfl (h.opened.ne heq '\ufeff' (by decide))
  · rw [h.opened.skipSpace, hvalue]
    rfl

/-! ### Plain text -/

theorem isPlain_of_isDigit {c : Char} (h : c.isDigit = true) : isPlain c = true := by
  have hrange : 48 ≤ c.toNat ∧ c.toNat ≤ 57 := Char.isDigit_iff_toNat.mp h
  simp only [isPlain, Bool.and_eq_true, decide_eq_true_eq]
  omega

theorem isPlain_digitChar : ∀ d < 16, isPlain (Nat.digitChar d) = true := by
  decide

theorem all_isPlain_unitEscape {n : Nat} (h : n < 0x10000) :
    (unitEscape n).toList.all isPlain = true := by
  rw [unitEscape, String.toList_append, toList_hex_four h, List.all_append]
  simp only [List.all_cons, List.all_nil, isPlain_digitChar _ (show n / 0x1000 < 16 by omega),
    isPlain_digitChar _ (Nat.mod_lt _ (by decide : 0 < 16))]
  rfl

theorem Form.all_isPlain {c : Char} {cs : List Char} (h : Form c cs) : cs.all isPlain = true := by
  have hbound := (toNat_lt c).1
  cases h with
  | short _ _ he _ =>
      rw [List.all_cons, List.all_cons, he]
      rfl
  | plain _ _ hc => rw [List.all_cons, hc]; rfl
  | unit h => exact all_isPlain_unitEscape h
  | pair h =>
      rw [List.all_append, all_isPlain_unitEscape (by omega), all_isPlain_unitEscape (by omega)]
      rfl

theorem all_isPlain_writeString (s : String) : (writeString s).toList.all isPlain = true := by
  have hchars : (s.toList.flatMap fun c => (writeChar c).toList).all isPlain = true := by
    rw [List.all_flatMap, List.all_eq_true]
    exact fun c _ => (form_writeChar c).all_isPlain
  rw [toList_writeString, List.all_cons, List.all_append, hchars]
  rfl

theorem all_isPlain_joined {ts : List (List Char)} (h : ∀ t ∈ ts, t.all isPlain = true) :
    (joined ts).all isPlain = true := by
  induction ts with
  | nil => rfl
  | cons t ts ih =>
      have ht := h t List.mem_cons_self
      cases ts with
      | nil => rwa [joined_singleton]
      | cons u ts =>
          rw [joined_cons_cons, List.all_append, ht, List.all_cons, List.all_cons,
            ih fun t' ht' => h t' (List.mem_cons_of_mem _ ht')]
          rfl

/-- The text of legible data is one line of plain ASCII. -/
theorem Legible.all_isPlain {depth : Nat} {j : Json} (h : Legible depth j) :
    (text j).all isPlain = true := by
  induction h with
  | null => rfl
  | bool _ b => cases b <;> rfl
  | @int _ n _ =>
      have hdigits : (Nat.toDigits 10 n.natAbs).all isPlain = true := by
        rw [List.all_eq_true]
        exact fun c hc => isPlain_of_isDigit (Nat.isDigit_of_mem_toDigits (by decide) (by decide) hc)
      rw [text, write, toList_intText]
      by_cases hneg : n < 0
      · rw [if_pos hneg, List.all_cons, hdigits]
        rfl
      · rw [if_neg hneg, hdigits]
  | str _ s => exact all_isPlain_writeString s
  | list _ ih =>
      rw [text_list, List.all_cons, List.all_append,
        all_isPlain_joined (List.forall_mem_map.mpr ih)]
      rfl
  | object _ _ ih =>
      rw [text_object, List.all_cons, List.all_append, all_isPlain_joined]
      · rfl
      · refine List.forall_mem_map.mpr fun e he => ?_
        rw [entryText, List.all_append, all_isPlain_writeString, List.all_cons, List.all_cons, ih e he]
        rfl

end ArrayExpr.Json

import Mathlib.Data.List.TakeWhile
import SourceClosure.Json.Shape
import SourceClosure.Proofs.Json.Spelling

/-!
# How lists and objects are written

The grammar of strings, lists and objects: what a text looks like for a value to be read from it
(`Reads`). An item or member stands behind spacing and, from the second one on, behind a comma
(`Items`). A list or object is read from what lists its items or members, in order and with their
repetitions, if each of these is read from what is written for it (`readItems_eq_ok_iff`,
`readPairs_eq_ok_iff`).
-/

namespace SourceClosure

namespace Json

variable {α β : Type}

/-- The text is a string of these characters, quotation marks included. -/
def IsString (s w : Text) : Prop :=
  ∃ body, Spells body s ∧ w = '"' :: (body ++ ['"'])

/-- Behind spacing, `f a` is read from what is written for `a` and from nothing else. -/
def Reads (reader : Reader β) (f : α → β) (written : α → Text → Prop) : Prop :=
  ∀ t a r, reader t = .ok (f a, r) ↔ ∃ g w, IsSpacing g ∧ written a w ∧ t = g ++ (w ++ r)

/-! ## Spacing -/

theorem isSpacing_nil : IsSpacing [] := fun _ hc => by cases hc

theorem isSpacing_append {g g' : Text} : IsSpacing (g ++ g') ↔ IsSpacing g ∧ IsSpacing g' :=
  List.forall_mem_append

theorem skipSpace_cons {c : Char} (hc : isSpace c = false) (t : Text) :
    skipSpace (c :: t) = c :: t :=
  List.dropWhile_cons_of_neg (by rw [hc]; decide)

theorem exists_of_skipSpace {t : Text} : ∃ g, IsSpacing g ∧ t = g ++ skipSpace t :=
  ⟨t.takeWhile isSpace, fun _ => List.mem_takeWhile_imp, List.takeWhile_append_dropWhile.symm⟩

theorem isSpace_of_skipSpace {c : Char} {t r : Text} (h : skipSpace t = c :: r) :
    isSpace c = false := by
  have hfirst := List.head?_dropWhile_not isSpace t
  rw [skipSpace] at h
  rw [h] at hfirst
  exact hfirst

theorem skipSpace_eq_cons_iff {c : Char} {t r : Text} (hc : isSpace c = false) :
    skipSpace t = c :: r ↔ ∃ g, IsSpacing g ∧ t = g ++ c :: r := by
  constructor
  · intro h
    obtain ⟨g, hg, ht⟩ := exists_of_skipSpace (t := t)
    exact ⟨g, hg, h ▸ ht⟩
  · rintro ⟨g, hg, rfl⟩
    rw [skipSpace_append hg, skipSpace_cons hc]

theorem expectColon_eq_ok_iff {t r : Text} :
    expectColon t = .ok r ↔ ∃ g, IsSpacing g ∧ t = g ++ ':' :: r := by
  rw [← skipSpace_eq_cons_iff (by decide), expectColon]
  split
  · next h => simp [h]
  · next c rest h =>
    rw [h]
    split
    · next hc => simp [hc]
    · next hc => simp [hc]

/-! ## The start of a value -/

theorem readHead_of_skipSpace {c : Char} {t rest : Text} (h : skipSpace t = c :: rest) :
    readHead t = readHead (c :: rest) := by
  rw [readHead, readHead, h, skipSpace_cons (isSpace_of_skipSpace h)]

theorem readHead_list {g : Text} (hg : IsSpacing g) (r : Text) :
    readHead (g ++ '[' :: r) = .ok (.list, r) := by
  rw [readHead_of_skipSpace ((skipSpace_eq_cons_iff (by decide)).2 ⟨g, hg, rfl⟩)]
  rfl

theorem readHead_object {g : Text} (hg : IsSpacing g) (r : Text) :
    readHead (g ++ '\x7b' :: r) = .ok (.object, r) := by
  rw [readHead_of_skipSpace ((skipSpace_eq_cons_iff (by decide)).2 ⟨g, hg, rfl⟩)]
  rfl

theorem readHead_string {g s w : Text} (hg : IsSpacing g) (hw : IsString s w) (r : Text) :
    readHead (g ++ (w ++ r)) = .ok (.scalar (.string s), r) := by
  obtain ⟨body, hbody, rfl⟩ := hw
  have hread : readQuoted (body ++ '"' :: r) = .ok (s, r) :=
    readQuoted_eq_ok_iff.2 ⟨body, hbody, rfl⟩
  have hskip : skipSpace (g ++ ('"' :: (body ++ ['"']) ++ r)) = '"' :: (body ++ '"' :: r) :=
    (skipSpace_eq_cons_iff (by decide)).2 ⟨g, hg, by simp⟩
  rw [readHead, hskip]
  simp [hread, Except.map]

theorem exists_of_readNumber {t r : Text} {head : Head} (h : readNumber t = .ok (head, r)) :
    ∃ n, head = .scalar (.number n) := by
  obtain ⟨⟨n, rest⟩, -, hread⟩ := bind_eq_ok_iff.1 h
  dsimp only at hread
  split at hread
  · cases hread
  · cases hread
    exact ⟨n, rfl⟩

/-- What may stand in front of the rest of a text for the start of a value to be read. Of the scalars
only strings are told apart. -/
inductive Starts : Head → (t rest : Text) → Prop where
  | list {g r : Text} : IsSpacing g → Starts .list (g ++ '[' :: r) r
  | object {g r : Text} : IsSpacing g → Starts .object (g ++ '\x7b' :: r) r
  | string {g s w r : Text} : IsSpacing g → IsString s w →
      Starts (.scalar (.string s)) (g ++ (w ++ r)) r
  | other {v : Value} {t r : Text} : OneOrMany.ofValue? v = none → Starts (.scalar v) t r

theorem starts_of_readHead {t r : Text} {head : Head} (h : readHead t = .ok (head, r)) :
    Starts head t r := by
  have word {x : Except Fault Text} {v : Value} (hv : OneOrMany.ofValue? v = none)
      (hx : x.map (.scalar v, ·) = .ok (head, r)) : Starts head t r := by
    obtain ⟨u, -, hu⟩ := map_eq_ok_iff.1 hx
    cases hu
    exact .other hv
  obtain ⟨g, hg, ht⟩ := exists_of_skipSpace (t := t)
  rw [readHead] at h
  split at h
  · cases h
  · next c rest hskip =>
    rw [hskip] at ht
    split_ifs at h with hnull htrue hfalse hstring hnumber hlist hobject
    · exact word rfl h
    · exact word rfl h
    · exact word rfl h
    · obtain ⟨⟨s, u⟩, hread, hu⟩ := map_eq_ok_iff.1 h
      cases hu
      obtain ⟨body, hbody, rfl⟩ := readQuoted_eq_ok_iff.1 hread
      have hstart := Starts.string (r := r) hg ⟨body, hbody, rfl⟩
      rw [ht, hstring]
      simpa using hstart
    · obtain ⟨n, rfl⟩ := exists_of_readNumber h
      exact .other rfl
    · cases h
      rw [ht, hlist]
      exact .list hg
    · cases h
      rw [ht, hobject]
      exact .object hg

/-! ## Items and members -/

/-- What stands before an item or member: spacing, and from the second one on a comma in it. -/
def IsSeparator (first : Bool) (g : Text) : Prop :=
  if first then IsSpacing g else ∃ g₁ g₂, IsSpacing g₁ ∧ IsSpacing g₂ ∧ g = g₁ ++ ',' :: g₂

/-- What is written for items or members, each behind its separator, with the closing bracket. -/
inductive Items (written : α → Text → Prop) (closing : Char) : Bool → List α → Text → Prop where
  | nil {first : Bool} {g : Text} : IsSpacing g → Items written closing first [] (g ++ [closing])
  | cons {first : Bool} {g w v : Text} {a : α} {as : List α} : IsSeparator first g → written a w →
      Items written closing false as v → Items written closing first (a :: as) (g ++ (w ++ v))

theorem IsSeparator.append {first : Bool} {g g' : Text} (h : IsSeparator first g)
    (hg' : IsSpacing g') : IsSeparator first (g ++ g') := by
  cases first with
  | true => exact isSpacing_append.2 ⟨h, hg'⟩
  | false =>
    obtain ⟨g₁, g₂, h₁, h₂, rfl⟩ := h
    exact ⟨g₁, g₂ ++ g', h₁, isSpacing_append.2 ⟨h₂, hg'⟩, by simp⟩

theorem nextItem_close_iff {first : Bool} {t r : Text} :
    nextItem first t = .ok (.close r) ↔ ∃ g, IsSpacing g ∧ t = g ++ ']' :: r := by
  rw [← skipSpace_eq_cons_iff (by decide), nextItem]
  split
  · next h => simp [h]
  · next c rest h =>
    rw [h]
    split_ifs with hclose hfirst hcomma
    · simp [hclose]
    · simp [hclose]
    · split
      · simp [hclose]
      · split_ifs <;> simp [hclose]
    · simp [hclose]

/-- An item is read behind its separator. -/
theorem exists_of_nextItem {first : Bool} {t u : Text} (h : nextItem first t = .ok (.item u)) :
    ∃ g, IsSeparator first g ∧ t = g ++ u := by
  obtain ⟨g, hg, ht⟩ := exists_of_skipSpace (t := t)
  rw [nextItem] at h
  split at h
  · cases h
  · next c rest hskip =>
    rw [hskip] at ht
    split_ifs at h with hclose hfirst hcomma
    · cases h
    · cases h
      exact ⟨g, hfirst ▸ hg, ht⟩
    · split at h
      · cases h
      · next d rest' hskip' =>
        split_ifs at h with hd
        cases h
        obtain ⟨g', hg', ht'⟩ := exists_of_skipSpace (t := rest)
        rw [Bool.not_eq_true] at hfirst
        refine ⟨g ++ ',' :: g', hfirst ▸ ⟨g, g', hg, hg', rfl⟩, ?_⟩
        rw [ht, hcomma, ht', hskip']
        simp

theorem nextItem_append {first : Bool} {g : Text} (hg : IsSeparator first g) {c : Char} {u : Text}
    (hspace : isSpace c = false) (hclose : c ≠ ']') :
    nextItem first (g ++ c :: u) = .ok (.item (c :: u)) := by
  cases first with
  | true =>
    have hskip : skipSpace (g ++ c :: u) = c :: u := (skipSpace_eq_cons_iff hspace).2 ⟨g, hg, rfl⟩
    simp [nextItem, hskip, hclose]
  | false =>
    obtain ⟨g₁, g₂, h₁, h₂, rfl⟩ := hg
    have hcomma : skipSpace (g₁ ++ ',' :: g₂ ++ c :: u) = ',' :: (g₂ ++ c :: u) :=
      (skipSpace_eq_cons_iff (by decide)).2 ⟨g₁, h₁, by simp⟩
    have hskip : skipSpace (g₂ ++ c :: u) = c :: u := (skipSpace_eq_cons_iff hspace).2 ⟨g₂, h₂, rfl⟩
    rw [nextItem, hcomma]
    simp [hskip, hclose]

theorem nextMember_close_iff {first : Bool} {t r : Text} :
    nextMember first t = .ok (.close r) ↔ ∃ g, IsSpacing g ∧ t = g ++ '\x7d' :: r := by
  have name {u : Text} : openName u ≠ .ok (.close r) := by
    cases u with
    | nil => simp [openName]
    | cons c u =>
      rw [openName]
      split <;> simp
  rw [← skipSpace_eq_cons_iff (by decide), nextMember]
  split
  · next h => simp [h]
  · next c rest h =>
    rw [h]
    split_ifs with hclose hfirst hcomma
    · simp [hclose]
    · simp [hclose, name]
    · simp [hclose, name]
    · simp [hclose]

theorem openName_eq_item_iff {t u : Text} : openName t = .ok (.item u) ↔ t = '"' :: u := by
  cases t with
  | nil => simp [openName]
  | cons c t =>
    rw [openName]
    split
    · next hc => simp [hc]
    · next hc => simp [hc]

/-- The name of a member is read behind its separator. -/
theorem nextMember_item_iff {first : Bool} {t u : Text} :
    nextMember first t = .ok (.item u) ↔ ∃ g, IsSeparator first g ∧ t = g ++ '"' :: u := by
  cases first with
  | true =>
    change _ ↔ ∃ g, IsSpacing g ∧ t = g ++ '"' :: u
    rw [← skipSpace_eq_cons_iff (by decide), nextMember]
    split
    · next h => simp [h]
    · next c rest h =>
      rw [h, if_pos rfl]
      split_ifs with hclose
      · simp [hclose]
      · rw [openName_eq_item_iff]
  | false =>
    have hcomma : (∃ g, IsSeparator false g ∧ t = g ++ '"' :: u) ↔
        ∃ rest, skipSpace t = ',' :: rest ∧ skipSpace rest = '"' :: u := by
      simp only [skipSpace_eq_cons_iff (show isSpace ',' = false by decide),
        skipSpace_eq_cons_iff (show isSpace '"' = false by decide)]
      constructor
      · rintro ⟨g, ⟨g₁, g₂, h₁, h₂, rfl⟩, rfl⟩
        exact ⟨_, ⟨g₁, h₁, by simp⟩, g₂, h₂, rfl⟩
      · rintro ⟨rest, ⟨g₁, h₁, rfl⟩, g₂, h₂, rfl⟩
        exact ⟨_, ⟨g₁, g₂, h₁, h₂, rfl⟩, by simp⟩
    rw [hcomma, nextMember]
    split
    · next h => simp [h]
    · next c rest h =>
      rw [h, if_neg Bool.false_ne_true]
      split_ifs with hclose hcomma
      · simp [hclose]
      · simp [hcomma, openName_eq_item_iff]
      · simp [hcomma]

/-! ## Lists -/

section Lists

variable {item : Reader β} {f : α → β} {written : α → Text → Prop}

/-- The items that are read are listed in front of what is left, whatever was read before them. An
item may be read as something that `f` does not give; then nothing is said. -/
theorem exists_of_readItemsFrom (hitem : Reads item f written) {bound t r : Text} {first : Bool}
    {done found : List β} (h : readItemsFrom item bound first done t = .ok (found, r)) :
    ∃ bs, found = done.reverse ++ bs ∧ ∀ as : List α, as.map f = bs →
      ∃ v, Items written ']' first as v ∧ t = v ++ r := by
  induction bound generalizing first done t with
  | nil => cases h
  | cons b bound ih =>
    rw [readItemsFrom] at h
    cases hnext : nextItem first t with
    | error fault => simp [hnext] at h
    | ok step =>
      rw [hnext] at h
      cases step with
      | close rest =>
        cases h
        obtain ⟨g, hg, rfl⟩ := nextItem_close_iff.1 hnext
        refine ⟨[], by simp, fun as has => ?_⟩
        obtain rfl := List.map_eq_nil_iff.1 has
        exact ⟨_, .nil hg, by simp⟩
      | item u =>
        cases hread : item u with
        | error fault => simp [hread] at h
        | ok found' =>
          obtain ⟨b, rest⟩ := found'
          simp only [hread] at h
          obtain ⟨bs, rfl, hbs⟩ := ih h
          refine ⟨b :: bs, by simp, fun as has => ?_⟩
          obtain ⟨a, as', rfl, rfl, htail⟩ := List.map_eq_cons_iff.1 has
          obtain ⟨v, hv, rfl⟩ := hbs as' htail
          obtain ⟨g', w, hg', hw, rfl⟩ := (hitem u a _).1 hread
          obtain ⟨g, hg, rfl⟩ := exists_of_nextItem hnext
          exact ⟨_, .cons (hg.append hg') hw hv, by simp⟩

/-- Listed items are read one by one. -/
theorem readItemsFrom_of_items (hitem : Reads item f written)
    (hstart : ∀ a w, written a w → ∃ c u, w = c :: u ∧ isSpace c = false ∧ c ≠ ']')
    {first : Bool} {as : List α} {v : Text} (h : Items written ']' first as v) :
    ∀ {bound : Text} (done : List β) (r : Text), v.length ≤ bound.length →
      readItemsFrom item bound first done (v ++ r) = .ok (done.reverse ++ as.map f, r) := by
  induction h with
  | @nil first g hg =>
    intro bound done r hbound
    cases bound with
    | nil => simp at hbound
    | cons b bound =>
      have hclose : nextItem first (g ++ [']'] ++ r) = .ok (.close r) :=
        nextItem_close_iff.2 ⟨g, hg, by simp⟩
      rw [readItemsFrom, hclose]
      simp
  | @cons first g w v a as hg hw _ ih =>
    intro bound done r hbound
    obtain ⟨c, u, hcu, hspace, hclose⟩ := hstart a w hw
    have hnext : nextItem first (g ++ (w ++ v) ++ r) = .ok (.item (w ++ (v ++ r))) := by
      have happend := nextItem_append (u := u ++ (v ++ r)) hg hspace hclose
      simpa [hcu] using happend
    have hread : item (w ++ (v ++ r)) = .ok (f a, v ++ r) :=
      (hitem _ _ _).2 ⟨[], w, isSpacing_nil, hw, rfl⟩
    cases bound with
    | nil => simp [hcu] at hbound
    | cons b bound =>
      have hlength : v.length ≤ bound.length := by
        simp only [hcu, List.length_append, List.length_cons] at hbound
        omega
      rw [readItemsFrom, hnext]
      simp only [hread]
      rw [ih (f a :: done) r hlength]
      simp

/-- The items of a list are read in the order in which they are listed. -/
theorem readItems_eq_ok_iff (hitem : Reads item f written)
    (hstart : ∀ a w, written a w → ∃ c u, w = c :: u ∧ isSpace c = false ∧ c ≠ ']')
    {t r : Text} {as : List α} :
    readItems item t = .ok (as.map f, r) ↔ ∃ v, Items written ']' true as v ∧ t = v ++ r := by
  constructor
  · intro h
    obtain ⟨bs, hbs, hlisted⟩ := exists_of_readItemsFrom hitem h
    exact hlisted as hbs
  · rintro ⟨v, hv, rfl⟩
    exact readItemsFrom_of_items hitem hstart hv [] r (by simp)

end Lists

/-! ## Objects -/

section Objects

variable {value : Reader α} {written : α → Text → Prop}

/-- What is written for a member: its name, a colon and its value. -/
def IsMember (written : α → Text → Prop) (member : Text × α) (w : Text) : Prop :=
  ∃ name g g' v, IsString member.1 name ∧ IsSpacing g ∧ IsSpacing g' ∧ written member.2 v ∧
    w = name ++ (g ++ ':' :: (g' ++ v))

/-- Behind its opening quotation mark, a member is read from what is written for it. -/
theorem isMember_iff (hvalue : Reads value id written) {t r name : Text} {a : α} :
    (∃ u, readQuoted t = .ok (name, u) ∧ readMemberValue value u = .ok (a, r)) ↔
      ∃ w, IsMember written (name, a) w ∧ '"' :: t = w ++ r := by
  constructor
  · rintro ⟨u, hname, hread⟩
    obtain ⟨body, hbody, rfl⟩ := readQuoted_eq_ok_iff.1 hname
    obtain ⟨u', hcolon, hcall⟩ := bind_eq_ok_iff.1 hread
    obtain ⟨g, hg, rfl⟩ := expectColon_eq_ok_iff.1 hcolon
    obtain ⟨g', v, hg', hv, rfl⟩ := (hvalue u' a r).1 hcall
    exact ⟨_, ⟨_, g, g', v, ⟨body, hbody, rfl⟩, hg, hg', hv, rfl⟩, by simp⟩
  · rintro ⟨w, ⟨_, g, g', v, ⟨body, hbody, rfl⟩, hg, hg', hv, rfl⟩, ht⟩
    have ht : t = body ++ '"' :: (g ++ ':' :: (g' ++ (v ++ r))) := by
      simpa using (List.cons.inj ht).2
    refine ⟨_, readQuoted_eq_ok_iff.2 ⟨body, hbody, ht⟩, bind_eq_ok_iff.2 ⟨g' ++ (v ++ r), ?_, ?_⟩⟩
    · exact expectColon_eq_ok_iff.2 ⟨g, hg, rfl⟩
    · exact (hvalue _ a r).2 ⟨g', v, hg', hv, rfl⟩

/-- The reader of one member, which is put before those read already. -/
def readPair (value : Reader α) (pairs : List (Text × α)) (name : Text) :
    Reader (List (Text × α)) :=
  (fun a => (name, a) :: pairs) <$> readMemberValue value

theorem exists_of_readMembersFrom (hvalue : Reads value id written) {bound t r : Text}
    {first : Bool} {done found : List (Text × α)}
    (h : readMembersFrom (readPair value) bound first done t = .ok (found, r)) :
    ∃ pairs v, found = pairs.reverse ++ done ∧
      Items (IsMember written) '\x7d' first pairs v ∧ t = v ++ r := by
  induction bound generalizing first done t with
  | nil => cases h
  | cons b bound ih =>
    rw [readMembersFrom] at h
    cases hnext : nextMember first t with
    | error fault => simp [hnext] at h
    | ok step =>
      rw [hnext] at h
      cases step with
      | close rest =>
        cases h
        obtain ⟨g, hg, rfl⟩ := nextMember_close_iff.1 hnext
        exact ⟨[], _, rfl, .nil hg, by simp⟩
      | item u =>
        cases hname : readQuoted u with
        | error fault => simp [hname] at h
        | ok found' =>
          obtain ⟨name, rest⟩ := found'
          simp only [hname] at h
          cases hread : readPair value done name rest with
          | error fault => simp [hread] at h
          | ok found' =>
            obtain ⟨done', rest'⟩ := found'
            simp only [hread] at h
            obtain ⟨a, ha, rfl⟩ := readerMap_eq_ok_iff.1 hread
            obtain ⟨pairs, v, rfl, hv, rfl⟩ := ih h
            obtain ⟨w, hw, hu⟩ := (isMember_iff hvalue).1 ⟨rest, hname, ha⟩
            obtain ⟨g, hg, rfl⟩ := nextMember_item_iff.1 hnext
            exact ⟨(name, a) :: pairs, _, by simp, .cons hg hw hv, by simp [hu]⟩

theorem readMembersFrom_of_items (hvalue : Reads value id written) {first : Bool}
    {pairs : List (Text × α)} {v : Text} (h : Items (IsMember written) '\x7d' first pairs v) :
    ∀ {bound : Text} (done : List (Text × α)) (r : Text), v.length ≤ bound.length →
      readMembersFrom (readPair value) bound first done (v ++ r) =
        .ok (pairs.reverse ++ done, r) := by
  induction h with
  | @nil first g hg =>
    intro bound done r hbound
    cases bound with
    | nil => simp at hbound
    | cons b bound =>
      have hclose : nextMember first (g ++ ['\x7d'] ++ r) = .ok (.close r) :=
        nextMember_close_iff.2 ⟨g, hg, by simp⟩
      rw [readMembersFrom, hclose]
      rfl
  | @cons first g w v member pairs hg hw _ ih =>
    intro bound done r hbound
    obtain ⟨name, a⟩ := member
    obtain ⟨u, hu⟩ : ∃ u, w = '"' :: u := by
      obtain ⟨_, _, _, _, ⟨body, -, rfl⟩, -, -, -, rfl⟩ := hw
      exact ⟨_, rfl⟩
    have hnext : nextMember first (g ++ (w ++ v) ++ r) = .ok (.item (u ++ (v ++ r))) :=
      nextMember_item_iff.2 ⟨g, hg, by simp [hu]⟩
    obtain ⟨rest, hname, hread⟩ := (isMember_iff (t := u ++ (v ++ r)) hvalue).2
      ⟨w, hw, by rw [hu]; rfl⟩
    have hpair : readPair value done name rest = .ok ((name, a) :: done, v ++ r) :=
      readerMap_eq_ok_iff.2 ⟨a, hread, rfl⟩
    cases bound with
    | nil => simp [hu] at hbound
    | cons b bound =>
      have hlength : v.length ≤ bound.length := by
        simp only [hu, List.length_append, List.length_cons] at hbound
        omega
      rw [readMembersFrom, hnext]
      simp only [hname, hpair]
      rw [ih _ r hlength]
      simp

/-- The members of an object are read in the order in which they are listed, repetitions included. -/
theorem readPairs_eq_ok_iff (hvalue : Reads value id written) {t r : Text}
    {pairs : List (Text × α)} :
    readPairs value t = .ok (pairs, r) ↔
      ∃ v, Items (IsMember written) '\x7d' true pairs v ∧ t = v ++ r := by
  have hrun : readPairs value t = .ok (pairs, r) ↔
      readMembersFrom (readPair value) t true [] t = .ok (pairs.reverse, r) := by
    change (List.reverse <$> readMembers (readPair value) []) t = .ok (pairs, r) ↔ _
    rw [readerMap_eq_ok_iff]
    constructor
    · rintro ⟨found, hfound, rfl⟩
      rwa [List.reverse_reverse]
    · intro h
      exact ⟨_, h, List.reverse_reverse pairs⟩
  rw [hrun]
  constructor
  · intro h
    obtain ⟨pairs', v, hpairs, hv, ht⟩ := exists_of_readMembersFrom hvalue h
    rw [List.append_nil, List.reverse_inj] at hpairs
    exact ⟨v, hpairs ▸ hv, ht⟩
  · rintro ⟨v, hv, rfl⟩
    rw [readMembersFrom_of_items hvalue hv [] r (by simp), List.append_nil]

/-- An object is read from its members between braces. -/
theorem readTable_eq_ok_iff (hvalue : Reads value id written) {t r : Text}
    {pairs : List (Text × α)} :
    readTable value t = .ok (pairs, r) ↔ ∃ g v, IsSpacing g ∧
      Items (IsMember written) '\x7d' true pairs v ∧ t = g ++ '\x7b' :: (v ++ r) := by
  unfold readTable
  rw [readerBind_eq_ok_iff]
  constructor
  · rintro ⟨head, u, hhead, hread⟩
    cases starts_of_readHead hhead with
    | object hg =>
      obtain ⟨v, hv, rfl⟩ := (readPairs_eq_ok_iff hvalue).1 hread
      exact ⟨_, v, hg, hv, rfl⟩
    | list => cases hread
    | string => cases hread
    | other => cases hread
  · rintro ⟨g, v, hg, hv, rfl⟩
    exact ⟨.object, v ++ r, readHead_object hg _, (readPairs_eq_ok_iff hvalue).2 ⟨v, hv, rfl⟩⟩

end Objects

/-! ## Strings and lists of strings -/

theorem string?_eq_some_iff {v : Value} {s : Text} : v.string? = some s ↔ v = .string s := by
  cases v <;> simp [Value.string?]

theorem mapM_string?_eq_some_iff {items : List Value} {ss : List Text} :
    items.mapM Value.string? = some ss ↔ items = ss.map Value.string := by
  induction items generalizing ss with
  | nil => cases ss <;> simp
  | cons v items ih =>
    rw [List.mapM_cons]
    cases ss with
    | nil => simp [Option.bind_eq_some_iff]
    | cons s ss => simp [Option.bind_eq_some_iff, string?_eq_some_iff, ih]

theorem OneOrMany.ofValue?_eq_one_iff {v : Value} {s : Text} :
    ofValue? v = some (one s) ↔ v = .string s := by
  cases v <;> simp [ofValue?]

theorem OneOrMany.ofValue?_eq_many_iff {v : Value} {ss : List Text} :
    ofValue? v = some (many ss) ↔ v = .list (ss.map Value.string) := by
  cases v <;> simp [ofValue?, mapM_string?_eq_some_iff]

theorem IsString.start {s w : Text} (h : IsString s w) :
    ∃ c u, w = c :: u ∧ isSpace c = false ∧ c ≠ ']' := by
  obtain ⟨body, -, rfl⟩ := h
  exact ⟨'"', _, rfl, by decide, by decide⟩

theorem reads_readValueWith_string (part : Option (Reader Value)) :
    Reads (readValueWith part) Value.string IsString := by
  intro t s r
  unfold readValueWith
  rw [readerBind_eq_ok_iff]
  constructor
  · rintro ⟨head, u, hhead, hread⟩
    cases starts_of_readHead hhead with
    | string hg hw =>
      cases hread
      exact ⟨_, _, hg, hw, rfl⟩
    | list =>
      cases part with
      | none => cases hread
      | some part =>
        obtain ⟨items, -, hitems⟩ := readerMap_eq_ok_iff.1 hread
        cases hitems
    | object =>
      cases part with
      | none => cases hread
      | some part =>
        obtain ⟨members, -, hmembers⟩ := readerMap_eq_ok_iff.1 hread
        cases hmembers
    | other hv =>
      cases hread
      cases hv
  · rintro ⟨g, w, hg, hw, rfl⟩
    exact ⟨_, r, readHead_string hg hw r, rfl⟩

theorem reads_readValue_string (room : Nat) : Reads (readValue room) Value.string IsString := by
  cases room with
  | zero => exact reads_readValueWith_string none
  | succ room => exact reads_readValueWith_string (some (readValue room))

/-- What is written for one string or several. -/
def OneOrMany.IsWritten : OneOrMany → Text → Prop
  | one s, w => IsString s w
  | many ss, w => ∃ v, Items IsString ']' true ss v ∧ w = '[' :: v

theorem reads_readValue_list (room : Nat) :
    Reads (readValue (room + 1)) (fun ss => .list (ss.map Value.string))
      (fun ss => (OneOrMany.many ss).IsWritten) := by
  intro t ss r
  have hitems {u : Text} : readItems (readValue room) u = .ok (ss.map Value.string, r) ↔
      ∃ v, Items IsString ']' true ss v ∧ u = v ++ r :=
    readItems_eq_ok_iff (reads_readValue_string room) (fun _ _ => IsString.start)
  change (readHead >>= _) t = _ ↔ _
  rw [readerBind_eq_ok_iff]
  constructor
  · rintro ⟨head, u, hhead, hread⟩
    cases starts_of_readHead hhead with
    | list hg =>
      obtain ⟨items, hlist, heq⟩ := readerMap_eq_ok_iff.1 hread
      obtain rfl := Value.list.inj heq
      obtain ⟨v, hv, rfl⟩ := hitems.1 hlist
      exact ⟨_, _, hg, ⟨v, hv, rfl⟩, rfl⟩
    | object =>
      obtain ⟨members, -, hmembers⟩ := readerMap_eq_ok_iff.1 hread
      cases hmembers
    | string => cases hread
    | @other v _ _ hv =>
      have hlist : v = .list (ss.map Value.string) := congrArg Prod.fst (Except.ok.inj hread)
      rw [OneOrMany.ofValue?_eq_many_iff.2 hlist] at hv
      cases hv
  · rintro ⟨g, _, hg, ⟨v, hv, rfl⟩, rfl⟩
    exact ⟨.list, v ++ r, readHead_list hg _,
      readerMap_eq_ok_iff.2 ⟨_, hitems.2 ⟨v, hv, rfl⟩, rfl⟩⟩

/-- One string or several are read from what is written for them. -/
theorem reads_readOneOrMany (room : Nat) :
    Reads (readOneOrMany (room + 1)) id OneOrMany.IsWritten := by
  intro t strings r
  have hvalue : readOneOrMany (room + 1) t = .ok (strings, r) ↔
      ∃ v, readValue (room + 1) t = .ok (v, r) ∧ OneOrMany.ofValue? v = some strings := by
    unfold readOneOrMany
    rw [readerBind_eq_ok_iff]
    constructor
    · rintro ⟨v, u, hv, hstrings⟩
      cases hsome : OneOrMany.ofValue? v with
      | none =>
        rw [hsome] at hstrings
        cases hstrings
      | some found =>
        rw [hsome] at hstrings
        cases hstrings
        exact ⟨v, hv, hsome⟩
    · rintro ⟨v, hv, hsome⟩
      exact ⟨v, r, hv, by rw [hsome]; rfl⟩
  rw [id, hvalue]
  cases strings with
  | one s =>
    simp only [OneOrMany.ofValue?_eq_one_iff, exists_eq_right]
    exact reads_readValue_string (room + 1) t s r
  | many ss =>
    simp only [OneOrMany.ofValue?_eq_many_iff, exists_eq_right]
    exact reads_readValue_list room t ss r

/-! ## Whole texts -/

theorem expectEnd_eq_ok_iff {t : Text} : expectEnd t = .ok () ↔ IsSpacing t := by
  have hnil : skipSpace t = [] ↔ IsSpacing t := List.dropWhile_eq_nil_iff
  rw [← hnil, expectEnd]
  split
  · next h => simp [h]
  · next h => simp [h]

theorem readAll_eq_ok_iff {reader : Reader α} {t : Text} {a : α} :
    readAll reader t = .ok a ↔ ∃ g, IsSpacing g ∧ reader t = .ok (a, g) := by
  unfold readAll
  simp only [bind_eq_ok_iff, Prod.exists, ← expectEnd_eq_ok_iff]
  constructor
  · rintro ⟨a', g, hread, ⟨⟩, hend, ha⟩
    cases ha
    exact ⟨g, hend, hread⟩
  · rintro ⟨g, hend, hread⟩
    exact ⟨a, g, hread, (), hend, rfl⟩

/-- The whole text is an object with these members, whose values are written as `written` says. -/
def IsObject (written : α → Text → Prop) (members : List (Text × α)) (t : Text) : Prop :=
  ∃ g v g', IsSpacing g ∧ Items (IsMember written) '\x7d' true members v ∧ IsSpacing g' ∧
    t = g ++ '\x7b' :: (v ++ g')

/-- The members of a whole text are read in the order in which they are listed. -/
theorem readAll_readTable_eq_ok_iff {value : Reader α} {written : α → Text → Prop}
    (hvalue : Reads value id written) {t : Text} {members : List (Text × α)} :
    readAll (readTable value) t = .ok members ↔ IsObject written members t := by
  simp only [readAll_eq_ok_iff, readTable_eq_ok_iff hvalue]
  constructor
  · rintro ⟨g', hg', g, v, hg, hv, ht⟩
    exact ⟨g, v, g', hg, hv, hg', ht⟩
  · rintro ⟨g, v, g', hg, hv, hg', ht⟩
    exact ⟨g', hg', g, v, hg, hv, ht⟩

theorem readAll_map_eq_ok_iff {reader : Reader α} {f : α → β} {t : Text} {b : β} :
    readAll (f <$> reader) t = .ok b ↔ ∃ a, readAll reader t = .ok a ∧ f a = b := by
  simp only [readAll_eq_ok_iff, readerMap_eq_ok_iff]
  constructor
  · rintro ⟨g, hg, a, ha, hb⟩
    exact ⟨a, ⟨g, hg, ha⟩, hb⟩
  · rintro ⟨a, ⟨g, hg, ha⟩, hb⟩
    exact ⟨g, hg, a, ha, hb⟩

end Json

end SourceClosure

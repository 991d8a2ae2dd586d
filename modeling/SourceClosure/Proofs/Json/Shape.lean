import SourceClosure.Json.Shape
import SourceClosure.Proofs.Json.Skipping

/-!
# Readers of known shapes go by tokens

The readers of scalars, lists, tables and records, each put together from readers that go by
tokens. A record goes by tokens if its fields do.
-/

namespace SourceClosure

namespace Json

variable {α β σ : Type}

theorem Steady.map {reader : Reader α} (h : Steady reader) (f : α → β) : Steady (f <$> reader) :=
  fun ts hchain => (h ts hchain).map f

/-! ## Scalars, lists and tables -/

theorem steady_readScalar (kind : Value → Option α) : Steady (readScalar kind) := by
  intro ts hchain
  refine (steady_readHead ts hchain).bind (fun head rest hsuffix => ?_)
  cases head with
  | scalar v =>
    dsimp only
    cases kind v with
    | none => exact .throw .unexpected
    | some a => exact .pure a
  | list => exact .throw .unexpected
  | object => exact .throw .unexpected

theorem steady_readList {item : Reader α} (hitem : Steady item) : Steady (readList item) := by
  intro ts hchain
  refine (steady_readHead ts hchain).bind (fun head rest hsuffix => ?_)
  cases head with
  | scalar v => exact .throw .unexpected
  | list => exact decided_readItems hitem (isChain_of_suffix hchain hsuffix)
  | object => exact .throw .unexpected

theorem steady_readTable {value : Reader α} (hvalue : Steady value) : Steady (readTable value) := by
  intro ts hchain
  refine (steady_readHead ts hchain).bind (fun head rest hsuffix => ?_)
  cases head with
  | scalar v => exact .throw .unexpected
  | list => exact .throw .unexpected
  | object => exact decided_readPairs hvalue (isChain_of_suffix hchain hsuffix)

theorem steady_readOptional {value : Reader α} (hvalue : Steady value) :
    Steady (readOptional value) := by
  intro ts hchain
  have hother {ts : List Token} (hsome : Decided (fun _ => some <$> value) ts 1)
      (hmark : ∀ t, Spaced ts t → (skipSpace t).head? ≠ some 'n') :
      Decided (fun _ => readOptional value) ts 1 := by
    refine hsome.of_run (List.suffix_refl ts) le_rfl (fun bound t hbound ht => ?_)
    refine ⟨bound, t, hbound, ht, ?_⟩
    have hne := hmark t ht
    unfold readOptional
    split
    · next heq =>
      rw [heq] at hne
      exact absurd rfl hne
    · rfl
  cases ts with
  | nil => exact hother ((hvalue [] hchain).map some) (fun t ht => by simp [ht.skipSpace_nil])
  | cons a ts =>
    by_cases ha : a = .null
    · subst ha
      exact .take none (fun _ t r _ ht => by
        simp [readOptional, ht, Token.mark, Token.text, expectWord, Except.map])
    · have hmark : a.mark ≠ 'n' := mt Token.mark_eq_null_iff.1 ha
      refine hother ((hvalue (a :: ts) hchain).map some) (fun t ht => ?_)
      obtain ⟨r, -, hskip⟩ := ht.skipSpace_cons
      simpa [hskip] using hmark

theorem steady_readOneOrMany (room : Nat) : Steady (readOneOrMany room) := by
  intro ts hchain
  refine (steady_readValue room ts hchain).bind (fun v rest hsuffix => ?_)
  cases OneOrMany.ofValue? v with
  | none => exact .throw .unexpected
  | some strings => exact .pure strings

/-! ## Records -/

/-- The field's value goes by tokens, whatever the record holds already. -/
def Field.IsSteady (f : Field σ) : Prop :=
  ∀ s, Steady (f.read s)

theorem isSteady_of {name : String} {value : Reader α} (hvalue : Steady value)
    (set : σ → α → σ) : (Field.of name value set).IsSteady :=
  fun s => hvalue.map (set s)

variable {fields : List (Field σ)}

theorem steady_readField (hfields : ∀ f ∈ fields, f.IsSteady) (state : List Text × σ)
    (name : Text) : Steady (readField fields state name) := by
  unfold readField
  split
  · exact (steady_readMemberValue steady_skipValue).map (fun _ => state)
  · next f hf =>
    have hfield := hfields f (List.mem_of_find?_eq_some hf)
    split
    · exact fun ts _ => .throw .unexpected
    · exact (steady_readMemberValue (hfield state.2)).map _

theorem decided_closeList (ts : List Token) : Decided (fun _ => closeList) ts 0 := by
  cases ts with
  | nil => exact .ended (fun _ t ht => by simp [closeList, ht])
  | cons a ts =>
    by_cases ha : a = .closing .list
    · subst ha
      refine Decided.mono (.take () (fun _ t r _ ht => ?_)) (Nat.zero_le 1)
      simp [closeList, ht, Token.mark, Token.text, Bracket.closing]
    · have hmark : a.mark ≠ ']' := mt (Token.mark_eq_closing_iff (b := .list)).1 ha
      exact .refuse .malformed (fun _ t r ht => by simp [closeList, ht, hmark])

theorem decided_readFields (hfields : ∀ f ∈ fields, f.IsSteady) {ts : List Token}
    (hchain : ts.IsChain Token.Precedes) (partly first : Bool) (s : σ) :
    Decided (fun _ => readFields partly first fields s) ts 0 := by
  induction fields generalizing ts first s with
  | nil => exact (decided_closeList ts).map (fun _ => s)
  | cons f fields ih =>
    cases stepDecided_nextItem first ts with
    | fails fault h =>
      exact .fails fault (fun _ t _ ht => by simp [readFields, h t ht])
    | close rest hsuffix h =>
      cases partly with
      | true =>
        refine .reads s rest hsuffix hsuffix.length_le (fun _ t _ ht => ?_)
        obtain ⟨r, hr, hnext⟩ := h t ht
        exact ⟨r, hr, by simp [readFields, hnext]⟩
      | false =>
        refine .fails .unexpected (fun _ t _ ht => ?_)
        obtain ⟨r, -, hnext⟩ := h t ht
        simp [readFields, hnext]
    | item lead hlead rest hsuffix h =>
      subst hlead
      cases hfields f List.mem_cons_self s rest (isChain_of_suffix hchain hsuffix) with
      | fails fault hf =>
        refine .fails fault (fun _ t _ ht => ?_)
        obtain ⟨r, hr, hnext⟩ := h t ht
        simp [readFields, hnext, hf r r hr.length_le hr]
      | reads s' rest' hsuffix' hlength hx =>
        have hrest := hsuffix'.trans hsuffix
        have hnext := ih (fun f hf => hfields f (List.mem_cons_of_mem _ hf))
          (isChain_of_suffix hchain hrest) false s'
        refine hnext.of_run hrest (Nat.add_le_add_right hrest.length_le 0)
          (fun bound t hbound ht => ?_)
        obtain ⟨r, hr, hnext⟩ := h t ht
        obtain ⟨r', hr', hread⟩ := hx r r hr.length_le hr
        exact ⟨bound, r', hrest.length_le.trans hbound, hr', by simp [readFields, hnext, hread]⟩

theorem steady_readRecord (hfields : ∀ f ∈ fields, f.IsSteady) (partly : Bool) (initial : σ) :
    Steady (readRecord fields partly initial) := by
  intro ts hchain
  refine (steady_readHead ts hchain).bind (fun head rest hsuffix => ?_)
  have hrest := isChain_of_suffix hchain hsuffix
  cases head with
  | scalar v => exact .throw .unexpected
  | list => exact decided_readFields hfields hrest partly true initial
  | object =>
    exact (decided_readMembers (steady_readField hfields) hrest ([], initial)).map Prod.snd

/-! ## Whole texts -/

/-- What a whole text is read as depends on its tokens only. -/
theorem readAll_congr {reader : Reader α} (h : Steady reader) {ts : List Token}
    (hchain : ts.IsChain Token.Precedes) {t t' : Text} (ht : Spaced ts t) (ht' : Spaced ts t') :
    readAll reader t = readAll reader t' := by
  cases h ts hchain with
  | fails fault h =>
    simp [readAll, h t t ht.length_le ht, h t' t' ht'.length_le ht', Bind.bind, Except.bind]
  | reads a rest hsuffix hlength h =>
    obtain ⟨r, hr, hread⟩ := h t t ht.length_le ht
    obtain ⟨r', hr', hread'⟩ := h t' t' ht'.length_le ht'
    have hend : expectEnd r = expectEnd r' := by
      cases rest with
      | nil => rw [expectEnd, expectEnd, hr.skipSpace_nil, hr'.skipSpace_nil]
      | cons b rest =>
        obtain ⟨_, -, hskip⟩ := hr.skipSpace_cons
        obtain ⟨_, -, hskip'⟩ := hr'.skipSpace_cons
        rw [expectEnd, expectEnd, hskip, hskip']
    simp [readAll, hread, hread', hend, Bind.bind, Except.bind]

end Json

end SourceClosure

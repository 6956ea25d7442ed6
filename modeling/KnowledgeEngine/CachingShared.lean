import KnowledgeEngine.CachingReads

/-!
Repositories behind caching decorators (repos/repository/decorators) over one byte cache. Every
decorator keeps its entities under keys made of its name and the text of an id; calls come one
after the other, and entries may expire between them. The repositories may have entities and
ids of different types.
-/

namespace KnowledgeEngine.CachingShared

open ByteText CachingRepository CoreTypes Function

/-- A repository as its decorator sees it. A write changes what Get returns for its own id
only, and nothing if it fails; Create returns an entity that was not there before. -/
structure Inner (T ID : Type) where
  State : Type
  idOf : T → ID
  Get : State → ID → Except ErrorValue T
  Exists : State → ID → Except ErrorValue Bool
  Create : State → T → Except ErrorValue T × State
  Update : State → ID → T → Except ErrorValue T × State
  Delete : State → ID → Except ErrorValue Unit × State
  exists_of_get : ∀ s id v, Get s id = .ok v → Exists s id = .ok true
  create_new : ∀ s entity v, (Create s entity).1 = .ok v → ∀ old, Get s (idOf v) ≠ .ok old
  create_get : ∀ s entity v, (Create s entity).1 = .ok v →
    Get (Create s entity).2 (idOf v) = .ok v
  create_frame : ∀ s entity v, (Create s entity).1 = .ok v → ∀ id, id ≠ idOf v →
    Get (Create s entity).2 id = Get s id
  create_failed : ∀ s entity err, (Create s entity).1 = .error err →
    Get (Create s entity).2 = Get s
  update_frame : ∀ s id entity other, other ≠ id → Get (Update s id entity).2 other = Get s other
  update_failed : ∀ s id entity err, (Update s id entity).1 = .error err →
    Get (Update s id entity).2 = Get s
  delete_frame : ∀ s id other, other ≠ id → Get (Delete s id).2 other = Get s other
  delete_failed : ∀ s id err, (Delete s id).1 = .error err → Get (Delete s id).2 = Get s

/-- A decorated repository; `warms` says that the decorator was given idOf. -/
structure Repository (T ID : Type) where
  decorator : Decorator T ID
  inner : Inner T ID
  warms : Bool

inductive Op (T ID : Type)
  | Get (id : ID)
  | Create (entity : T)
  | Update (id : ID) (entity : T)
  | Delete (id : ID)
  | Exists (id : ID)

inductive Answer (T : Type)
  | entity (result : Except ErrorValue T)
  | done (result : Except ErrorValue Unit)
  | found (result : Except ErrorValue Bool)

abbrev Cache := String → Option Bytes

section Calls

variable {T ID : Type}

/-- The call without the decorator. -/
def Inner.answer (inner : Inner T ID) (s : inner.State) : Op T ID → Answer T × inner.State
  | .Get id => (.entity (inner.Get s id), s)
  | .Create entity => (.entity (inner.Create s entity).1, (inner.Create s entity).2)
  | .Update id entity => (.entity (inner.Update s id entity).1, (inner.Update s id entity).2)
  | .Delete id => (.done (inner.Delete s id).1, (inner.Delete s id).2)
  | .Exists id => (.found (inner.Exists s id), s)

/-- readCache of an entry in the byte cache. -/
def read (d : Decorator T ID) (entry : Option Bytes) : Option T :=
  (d.readCache (entry.map fun data => ⟨data, 0⟩)).map Revised.value

/-- Encode and Set, for a result that is not an error. -/
def fill (d : Decorator T ID) (cache : Cache) (id : ID) (result : Except ErrorValue T) : Cache :=
  match result with
  | .error _ => cache
  | .ok v =>
    match d.encode v with
    | .error _ => cache
    | .ok data => update cache (d.cacheKey id) (some data)

def evict (d : Decorator T ID) (cache : Cache) (id : ID) : Cache :=
  update cache (d.cacheKey id) none

/-- The call at the decorator: its answer, and the state and the cache after it. -/
def Repository.answer (repo : Repository T ID) (s : repo.inner.State) (cache : Cache) :
    Op T ID → Answer T × repo.inner.State × Cache
  | .Get id =>
    match read repo.decorator (cache (repo.decorator.cacheKey id)) with
    | some v => (.entity (.ok v), s, cache)
    | none => (.entity (repo.inner.Get s id), s,
        fill repo.decorator cache id (repo.inner.Get s id))
  | .Create entity =>
    let result := (repo.inner.Create s entity).1
    (.entity result, (repo.inner.Create s entity).2,
      match result with
      | .ok v => if repo.warms then fill repo.decorator cache (repo.inner.idOf v) result else cache
      | .error _ => cache)
  | .Update id entity =>
    let result := (repo.inner.Update s id entity).1
    (.entity result, (repo.inner.Update s id entity).2,
      if result.isOk then evict repo.decorator cache id else cache)
  | .Delete id =>
    let result := (repo.inner.Delete s id).1
    (.done result, (repo.inner.Delete s id).2,
      if result.isOk then evict repo.decorator cache id else cache)
  | .Exists id =>
    match read repo.decorator (cache (repo.decorator.cacheKey id)) with
    | some _ => (.found (.ok true), s, cache)
    | none => (.found (repo.inner.Exists s id), s, cache)

end Calls

section Histories

variable {ι : Type} [DecidableEq ι] {T ID : ι → Type}

inductive Event (T ID : ι → Type)
  | call (i : ι) (op : Op (T i) (ID i))
  | expire (key : String)

/-- The states of the inner repositories and the cache they share. -/
structure Shared (repos : (i : ι) → Repository (T i) (ID i)) where
  inner : (i : ι) → (repos i).inner.State
  cache : Cache

variable (repos : (i : ι) → Repository (T i) (ID i))

def cachedAnswers (st : Shared repos) : List (Event T ID) → List ((i : ι) × Answer (T i))
  | [] => []
  | .expire key :: rest =>
    cachedAnswers ⟨st.inner, update st.cache key none⟩ rest
  | .call i op :: rest =>
    let result := (repos i).answer (st.inner i) st.cache op
    ⟨i, result.1⟩ ::
      cachedAnswers ⟨update st.inner i result.2.1, result.2.2⟩ rest

def innerAnswers (inner : (i : ι) → (repos i).inner.State) :
    List (Event T ID) → List ((i : ι) × Answer (T i))
  | [] => []
  | .expire _ :: rest => innerAnswers inner rest
  | .call i op :: rest =>
    let result := (repos i).inner.answer (inner i) op
    ⟨i, result.1⟩ :: innerAnswers (update inner i result.2) rest

/-- From an empty cache, every history has the answers it would have without the cache. -/
def Transparent : Prop :=
  ∀ inner history, cachedAnswers repos ⟨inner, fun _ => none⟩ history =
    innerAnswers repos inner history

/-- Different ids of a repository print differently, and where one name is another with a
colon and more behind it, no id of the shorter name prints as that rest, a colon and an id of
the longer. -/
structure Separated : Prop where
  format : ∀ i, Injective (repos i).decorator.format
  apart : ∀ i j rest a b, i ≠ j →
    (repos j).decorator.name = (repos i).decorator.name ++ ":" ++ rest →
      (repos i).decorator.format a ≠ rest ++ ":" ++ (repos j).decorator.format b

/-- No two ids of the repositories share a key. -/
def KeysDistinct : Prop :=
  ∀ i j a b, (repos i).decorator.cacheKey a = (repos j).decorator.cacheKey b →
    (⟨i, a⟩ : (i : ι) × ID i) = ⟨j, b⟩

/-- encoding/json reads back what it wrote. -/
def Faithful : Prop :=
  ∀ i v data, (repos i).decorator.marshal ⟨v, (repos i).decorator.version⟩ = .ok data →
    (repos i).decorator.unmarshal data = .ok ⟨v, (repos i).decorator.version⟩

/-- Every decorator reads the envelopes of every other as its own, and each id may be there
or not, whatever the others. -/
structure Legible : Prop where
  states : ∀ i, Nonempty (repos i).inner.State
  reads : ∀ i v, ∃ data, (repos i).decorator.encode v = .ok data ∧
    ∀ j, ∃ w, read (repos j).decorator (some data) = some w
  present : ∀ i a, ∃ s v, (repos i).inner.Get s a = .ok v
  absent : ∀ i b, ∃ s err, (repos i).inner.Get s b = .error err
  both : ∀ i a b, a ≠ b → ∃ s v err, (repos i).inner.Get s a = .ok v ∧
    (repos i).inner.Get s b = .error err

end Histories

/-- Two texts behind a name and a colon are equal only part by part, or with one name running
on into the other text. -/
theorem colon_append_eq {n m x y : String} (h : n ++ ":" ++ x = m ++ ":" ++ y) :
    (n = m ∧ x = y) ∨ (∃ rest, m = n ++ ":" ++ rest ∧ x = rest ++ ":" ++ y) ∨
      ∃ rest, n = m ++ ":" ++ rest ∧ y = rest ++ ":" ++ x := by
  have hlist : n.toList ++ ':' :: x.toList = m.toList ++ ':' :: y.toList := by
    simpa using congrArg String.toList h
  have hlonger : ∀ {n m x y : String}, (∃ mid, m.toList = n.toList ++ mid ∧
      ':' :: x.toList = mid ++ ':' :: y.toList) →
        (n = m ∧ x = y) ∨ ∃ rest, m = n ++ ":" ++ rest ∧ x = rest ++ ":" ++ y := by
    rintro n m x y ⟨_ | ⟨c, rest⟩, hname, htext⟩
    · refine .inl ⟨?_, ?_⟩
      · exact String.toList_inj.mp (by rw [hname, List.append_nil])
      · exact String.toList_inj.mp (List.cons.inj htext).2
    · obtain ⟨rfl, hrest⟩ := List.cons.inj htext
      refine .inr ⟨String.ofList rest, ?_, ?_⟩
      · exact String.toList_inj.mp (by simp [hname])
      · exact String.toList_inj.mp (by simpa using hrest)
  rcases List.append_eq_append_iff.mp hlist with hfirst | hsecond
  · exact (hlonger hfirst).imp_right .inl
  · rcases hlonger hsecond with ⟨hname, htext⟩ | hrest
    · exact .inl ⟨hname.symm, htext.symm⟩
    · exact .inr (.inr hrest)

section Transparency

variable {ι : Type} {T ID : ι → Type}
  {repos : (i : ι) → Repository (T i) (ID i)}

theorem cacheKey_eq_iff {T T' ID ID' : Type} (d : Decorator T ID) (d' : Decorator T' ID') (a : ID)
    (b : ID') : d.cacheKey a = d'.cacheKey b ↔
      d.name ++ ":" ++ d.format a = d'.name ++ ":" ++ d'.format b := by
  rw [Decorator.cacheKey, Decorator.cacheKey]
  simp only [String.append_assoc, String.append_right_inj]

/-- With distinct names, no two ids share a key if and only if names and ids are separated. -/
theorem keysDistinct_iff (hnames : Injective fun i => (repos i).decorator.name) :
    KeysDistinct repos ↔ Separated repos := by
  constructor
  · intro hkeys
    refine ⟨fun i a b hformat => ?_, fun i j rest a b hne hname hformat => ?_⟩
    · have hkey : (repos i).decorator.cacheKey a = (repos i).decorator.cacheKey b := by
        rw [Decorator.cacheKey, Decorator.cacheKey, hformat]
      exact eq_of_heq (Sigma.mk.inj (hkeys i i a b hkey)).2
    · refine hne (Sigma.mk.inj (hkeys i j a b ?_)).1
      rw [cacheKey_eq_iff, hname, hformat]
      simp only [String.append_assoc]
  · intro hseparated i j a b hkey
    rw [cacheKey_eq_iff] at hkey
    by_cases hij : i = j
    · subst hij
      exact congrArg _ (hseparated.format i ((String.append_right_inj _).mp hkey))
    · rcases colon_append_eq hkey with ⟨hname, -⟩ | ⟨rest, hname, htext⟩ | ⟨rest, hname, htext⟩
      · exact absurd (hnames hname) hij
      · exact absurd htext (hseparated.apart i j rest a b hij hname)
      · exact absurd htext (hseparated.apart j i rest b a (Ne.symm hij) hname)

/-- What a decorator reads under an id's key is what the inner repository has there. -/
def Coherent (st : Shared repos) : Prop :=
  ∀ i id v, read (repos i).decorator (st.cache ((repos i).decorator.cacheKey id)) = some v →
    (repos i).inner.Get (st.inner i) id = .ok v

section Single

variable {T ID : Type} {repo : Repository T ID} {s : repo.inner.State} {cache cache' : Cache}

/-- The repository has what its decorator reads in the new cache, and entries under keys that
are not the decorator's are as before. -/
structure Repository.Follows (repo : Repository T ID) (s : repo.inner.State)
    (cache cache' : Cache) : Prop where
  holds : ∀ id v, read repo.decorator (cache' (repo.decorator.cacheKey id)) = some v →
    repo.inner.Get s id = .ok v
  frame : ∀ key, (∀ id, repo.decorator.cacheKey id ≠ key) → cache' key = cache key

theorem read_none {d : Decorator T ID} : read d none = none := rfl

variable {s' : repo.inner.State}

/-- Nothing is dropped, and the cache keeps its entries. -/
theorem Repository.Follows.keep (h : repo.Follows s cache cache)
    (hkeep : ∀ id v, repo.inner.Get s id = .ok v → repo.inner.Get s' id = .ok v) :
    repo.Follows s' cache cache :=
  ⟨fun id v hread => hkeep id v (h.holds id v hread), fun _ _ => rfl⟩

variable {id : ID}

/-- The entry of one id is replaced, and the repository changes there only. -/
theorem Repository.Follows.replace (hkeys : Injective repo.decorator.cacheKey)
    (h : repo.Follows s cache cache) {entry : Option Bytes}
    (hentry : ∀ v, read repo.decorator entry = some v → repo.inner.Get s' id = .ok v)
    (hframe : ∀ other, other ≠ id → repo.inner.Get s' other = repo.inner.Get s other) :
    repo.Follows s' cache (update cache (repo.decorator.cacheKey id) entry) where
  holds := by
    intro other v hread
    rw [update_apply] at hread
    split at hread
    · next hkey =>
      obtain rfl := hkeys hkey
      exact hentry v hread
    · next hkey =>
      rw [hframe other (fun heq => hkey (by rw [heq]))]
      exact h.holds other v hread
  frame := fun _ hkey => update_of_ne (hkey id).symm _ _

/-- The entry of the one id the repository changes is dropped. -/
theorem Repository.Follows.evict (hkeys : Injective repo.decorator.cacheKey)
    (h : repo.Follows s cache cache)
    (hframe : ∀ other, other ≠ id → repo.inner.Get s' other = repo.inner.Get s other) :
    repo.Follows s' cache (evict repo.decorator cache id) :=
  h.replace hkeys (fun v hv => by cases read_none.symm.trans hv) hframe

variable (hjson : ∀ v data, repo.decorator.marshal ⟨v, repo.decorator.version⟩ = .ok data →
  repo.decorator.unmarshal data = .ok ⟨v, repo.decorator.version⟩)
include hjson

theorem read_encoded {v w : T} {data : Bytes} (hencode : repo.decorator.encode v = .ok data)
    (hread : read repo.decorator (some data) = some w) : w = v := by
  have hmarshal : repo.decorator.marshal ⟨v, repo.decorator.version⟩ = .ok data := by
    rw [Decorator.encode] at hencode
    split at hencode
    · cases hencode
    · next hmarshal => rw [hmarshal, Except.ok.inj hencode]
  have hdecode : repo.decorator.decode data = .ok (some v) := by
    rw [Decorator.decode, hjson v data hmarshal]
    exact congrArg _ (if_pos rfl)
  rw [read, Option.map_some, Decorator.readCache, hdecode] at hread
  exact (Option.some.inj hread).symm

/-- The cache may be filled with what the repository has. -/
theorem Repository.Follows.fill (hkeys : Injective repo.decorator.cacheKey)
    (h : repo.Follows s cache cache) {result : Except ErrorValue T}
    (hkeep : ∀ other v, repo.inner.Get s other = .ok v → repo.inner.Get s' other = .ok v)
    (hresult : ∀ v, result = .ok v → repo.inner.Get s' id = .ok v)
    (hframe : ∀ other, other ≠ id → repo.inner.Get s' other = repo.inner.Get s other) :
    repo.Follows s' cache (fill repo.decorator cache id result) := by
  unfold CachingShared.fill
  split
  · exact h.keep hkeep
  · next v =>
    split
    · exact h.keep hkeep
    · next data hencode =>
      refine h.replace hkeys (fun w hread => ?_) hframe
      rw [read_encoded hjson hencode hread]
      exact hresult v rfl

/-- A call is answered as without the cache, which then follows the repository again. -/
theorem Repository.Follows.answer (hkeys : Injective repo.decorator.cacheKey)
    (h : repo.Follows s cache cache) (op : Op T ID) :
    ∃ cache', repo.answer s cache op =
        ((repo.inner.answer s op).1, (repo.inner.answer s op).2, cache') ∧
      repo.Follows (repo.inner.answer s op).2 cache cache' := by
  cases op with
  | Get id =>
    rw [Repository.answer]
    cases hread : read repo.decorator (cache (repo.decorator.cacheKey id)) with
    | some v => exact ⟨cache, by rw [Inner.answer, h.holds id v hread], h⟩
    | none =>
      exact ⟨_, rfl, h.fill hjson hkeys (fun _ _ hv => hv) (fun _ hv => hv) fun _ _ => rfl⟩
  | Exists id =>
    rw [Repository.answer]
    cases hread : read repo.decorator (cache (repo.decorator.cacheKey id)) with
    | some v =>
      have hexists := repo.inner.exists_of_get _ id v (h.holds id v hread)
      exact ⟨cache, by rw [Inner.answer, hexists], h⟩
    | none => exact ⟨cache, rfl, h⟩
  | Create entity =>
    refine ⟨_, rfl, ?_⟩
    rw [Inner.answer]
    cases hcreate : (repo.inner.Create s entity).1 with
    | error err => exact h.keep fun id v hv => by rwa [repo.inner.create_failed _ _ _ hcreate]
    | ok v =>
      have hframe := repo.inner.create_frame _ _ _ hcreate
      have hkeep : ∀ id old, repo.inner.Get s id = .ok old →
          repo.inner.Get (repo.inner.Create s entity).2 id = .ok old := by
        intro id old hold
        rw [hframe id, hold]
        rintro rfl
        exact repo.inner.create_new _ _ _ hcreate old hold
      dsimp only
      split
      · refine h.fill hjson hkeys hkeep (fun w hw => ?_) hframe
        rw [← Except.ok.inj hw]
        exact repo.inner.create_get _ _ _ hcreate
      · exact h.keep hkeep
  | Update id entity =>
    refine ⟨_, rfl, ?_⟩
    rw [Inner.answer]
    cases hupdate : (repo.inner.Update s id entity).1 with
    | error err => exact h.keep fun _ v hv => by rwa [repo.inner.update_failed _ _ _ _ hupdate]
    | ok v => exact h.evict hkeys (repo.inner.update_frame _ _ _)
  | Delete id =>
    refine ⟨_, rfl, ?_⟩
    rw [Inner.answer]
    cases hdelete : (repo.inner.Delete s id).1 with
    | error err => exact h.keep fun _ v hv => by rwa [repo.inner.delete_failed _ _ _ hdelete]
    | ok v => exact h.evict hkeys (repo.inner.delete_frame _ _)

end Single

variable {st : Shared repos}

theorem Coherent.expire (h : Coherent st) (key : String) :
    Coherent ⟨st.inner, update st.cache key none⟩ := by
  intro i id v hread
  change read _ (update st.cache key none _) = some v at hread
  rw [update_apply] at hread
  split at hread
  · cases hread
  · exact h i id v hread

variable [DecidableEq ι]

/-- One repository and the cache move on; the entries of the others are as before. -/
theorem Coherent.follow (hkeys : KeysDistinct repos) (h : Coherent st) {i : ι}
    {s : (repos i).inner.State} {cache : Cache} (hnext : (repos i).Follows s st.cache cache) :
    Coherent ⟨update st.inner i s, cache⟩ := by
  intro j id v hread
  show (repos j).inner.Get (update st.inner i s j) id = .ok v
  by_cases hij : j = i
  · subst hij
    rw [update_self]
    exact hnext.holds id v hread
  · rw [update_of_ne hij]
    refine h j id v ((hnext.frame _ fun a hkey => ?_) ▸ hread)
    exact hij (Sigma.mk.inj (hkeys i j a id hkey)).1.symm

/-- From a coherent state the cache shows in no answer. -/
theorem cachedAnswers_eq (hjson : Faithful repos) (hkeys : KeysDistinct repos) (h : Coherent st)
    {history : List (Event T ID)} :
    cachedAnswers repos st history = innerAnswers repos st.inner history := by
  induction history generalizing st with
  | nil => rfl
  | cons event rest ih =>
    cases event with
    | expire key => exact ih (h.expire key)
    | call i op =>
      obtain ⟨cache, hanswer, hnext⟩ := Repository.Follows.answer (hjson i)
        (fun a b hkey => eq_of_heq (Sigma.mk.inj (hkeys i i a b hkey)).2) ⟨h i, fun _ _ => rfl⟩ op
      rw [cachedAnswers, innerAnswers, hanswer, ih (h.follow hkeys hnext)]

/-- Two Gets under one key: the second is served the entity of the first. -/
theorem collision_answers {i j : ι} {a : ID i} {b : ID j}
    (hkey : (repos i).decorator.cacheKey a = (repos j).decorator.cacheKey b)
    {inner : (i : ι) → (repos i).inner.State} {v : T i} {w : T j} {data : Bytes}
    (hv : (repos i).inner.Get (inner i) a = .ok v)
    (hencode : (repos i).decorator.encode v = .ok data)
    (hread : read (repos j).decorator (some data) = some w) :
    cachedAnswers repos ⟨inner, fun _ => none⟩ [.call i (.Get a), .call j (.Get b)] =
      [⟨i, .entity (.ok v)⟩, ⟨j, .entity (.ok w)⟩] := by
  have hfirst : (repos i).answer (inner i) (fun _ => none) (.Get a) =
      (.entity (.ok v), inner i, update (fun _ => none)
        ((repos i).decorator.cacheKey a) (some data)) := by
    rw [Repository.answer, read_none, hv, fill, hencode]
  have hsecond : read (repos j).decorator (update (fun _ => none)
      ((repos i).decorator.cacheKey a) (some data) ((repos j).decorator.cacheKey b)) = some w := by
    rw [hkey, update_self, hread]
  rw [cachedAnswers, hfirst, cachedAnswers, Repository.answer, hsecond, cachedAnswers]

theorem transparent_keysDistinct (hlegible : Legible repos) (h : Transparent repos) :
    KeysDistinct repos := by
  intro i j a b hkey
  by_contra hne
  obtain ⟨inner, v, err, hv, herr⟩ : ∃ inner : (i : ι) → (repos i).inner.State, ∃ v err,
      (repos i).inner.Get (inner i) a = .ok v ∧ (repos j).inner.Get (inner j) b = .error err := by
    have states : (i : ι) → (repos i).inner.State := fun i => (hlegible.states i).some
    by_cases hij : i = j
    · subst hij
      obtain ⟨s, v, err, hv, herr⟩ := hlegible.both i a b fun hab => hne (by rw [hab])
      refine ⟨update states i s, v, err, ?_, ?_⟩
      · rwa [update_self]
      · rwa [update_self]
    · obtain ⟨s, v, hv⟩ := hlegible.present i a
      obtain ⟨s', err, herr⟩ := hlegible.absent j b
      refine ⟨update (update states i s) j s', v, err, ?_, ?_⟩
      · rwa [update_of_ne hij, update_self]
      · rwa [update_self]
  obtain ⟨data, hencode, hreads⟩ := hlegible.reads i v
  obtain ⟨w, hread⟩ := hreads j
  have hanswers := h inner [.call i (.Get a), .call j (.Get b)]
  rw [collision_answers hkey hv hencode hread, innerAnswers, innerAnswers, Inner.answer,
    Inner.answer, update_eq_self, herr] at hanswers
  have hsecond := (List.cons.inj (List.cons.inj hanswers).2).1
  cases eq_of_heq (Sigma.mk.inj hsecond).2

/-- Over one cache, repositories of distinct names answer every history as they would without
it if their names and ids are separated, and only if they are where each decorator can read
what the others write. -/
theorem transparent_of_separated_iff (repos : (i : ι) → Repository (T i) (ID i))
    (hnames : Injective fun i => (repos i).decorator.name) (hjson : Faithful repos) :
    (Separated repos → Transparent repos) ∧
      (Legible repos → (Transparent repos ↔ Separated repos)) := by
  have hsufficient : Separated repos → Transparent repos := by
    intro hseparated inner history
    have hempty : Coherent (⟨inner, fun _ => none⟩ : Shared repos) := by
      intro i id v hread
      cases hread
    exact cachedAnswers_eq hjson ((keysDistinct_iff hnames).mpr hseparated) hempty
  refine ⟨hsufficient, fun hlegible => ⟨fun h => ?_, hsufficient⟩⟩
  exact (keysDistinct_iff hnames).mp (transparent_keysDistinct hlegible h)

end Transparency

def flagMissing : ErrorValue := .new .notFound "flag not found"

/-- A table of flags; a created flag gets its value for an id. -/
def flagTable : Inner Bool String where
  State := String → Option Bool
  idOf := fun v => toString v
  Get := fun s id => match s id with
    | some v => .ok v
    | none => .error flagMissing
  Exists := fun s id => .ok (s id).isSome
  Create := fun s v => match s (toString v) with
    | some _ => (.error (.new .conflict "flag exists"), s)
    | none => (.ok v, update s (toString v) (some v))
  Update := fun s id v => match s id with
    | some _ => (.ok v, update s id (some v))
    | none => (.error flagMissing, s)
  Delete := fun s id => match s id with
    | some _ => (.ok (), update s id none)
    | none => (.error flagMissing, s)
  exists_of_get := by grind
  create_new := by grind
  create_get := by intros; split at * <;> simp_all
  create_frame := by intros; split at * <;> simp_all
  create_failed := by intros; split at * <;> simp_all
  update_frame := fun s id _ _ _ => by cases hs : s id <;> simp_all
  update_failed := by intros; split at * <;> simp_all
  delete_frame := fun s id _ _ => by cases hs : s id <;> simp_all
  delete_failed := by intros; split at * <;> simp_all

/-- Two tables of flags, under two names. -/
def flagRepositories (first second : String) (i : Bool) : Repository Bool String :=
  ⟨{ CachingReads.flags with name := if i then second else first }, flagTable, true⟩

variable {first second : String}

theorem flagRepositories_faithful : Faithful (flagRepositories first second) := by
  intro i v data h
  obtain rfl := Except.ok.inj h
  cases v <;> rfl

theorem flagRepositories_legible : Legible (flagRepositories first second) where
  states := fun _ => ⟨(fun _ => none : String → Option Bool)⟩
  reads := by
    intro i v
    refine ⟨CachingReads.flagText ⟨v, 1⟩, rfl, fun j => ⟨v, ?_⟩⟩
    cases v <;> rfl
  present := fun _ _ => ⟨(fun _ => some true : String → Option Bool), true, rfl⟩
  absent := fun _ _ => ⟨(fun _ => none : String → Option Bool), flagMissing, rfl⟩
  both := by
    intro i a b hne
    refine ⟨(fun id => if id = a then some true else none : String → Option Bool), true,
      flagMissing, ?_, ?_⟩
    · show (flagTable.Get _ a : Except ErrorValue Bool) = .ok true
      simp [flagTable]
    · show (flagTable.Get _ b : Except ErrorValue Bool) = .error flagMissing
      simp [flagTable, Ne.symm hne]

theorem flagRepositories_names (h : first ≠ second) :
    Injective fun i => (flagRepositories first second i).decorator.name := by
  intro i j hij
  cases i <;> cases j
  · rfl
  · exact absurd hij h
  · exact absurd hij.symm h
  · rfl

theorem transparent_two_names : Transparent (flagRepositories "flag" "role") ∧
    ¬ Transparent (flagRepositories "a" "a:b") := by
  constructor
  · refine (transparent_of_separated_iff _ (flagRepositories_names (by decide))
      flagRepositories_faithful).1 ⟨fun i a b h => h, ?_⟩
    intro i j rest a b hij hname
    have hlist := congrArg String.toList hname
    cases i <;> cases j <;> simp [flagRepositories] at hij hlist
  · intro h
    have hseparated := ((transparent_of_separated_iff _ (flagRepositories_names (by decide))
      flagRepositories_faithful).2 flagRepositories_legible).mp h
    exact hseparated.apart false true "b" "b:x" "x" (by decide) rfl rfl

/-- With the names a and a:b, the flag got for b:x of the first table is served for x of the
second, which has no such flag. -/
theorem names_collide :
    cachedAnswers (flagRepositories "a" "a:b")
        ⟨fun i id => if !i && id == "b:x" then some true else none, fun _ => none⟩
        [.call false (.Get "b:x"), .call true (.Get "x")] =
      [⟨false, .entity (.ok true)⟩, ⟨true, .entity (.ok true)⟩] ∧
    innerAnswers (flagRepositories "a" "a:b")
        (fun i id => if !i && id == "b:x" then some true else none)
        [.call false (.Get "b:x"), .call true (.Get "x")] =
      [⟨false, .entity (.ok true)⟩, ⟨true, .entity (.error flagMissing)⟩] :=
  ⟨rfl, rfl⟩

end KnowledgeEngine.CachingShared

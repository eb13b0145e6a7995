import CriteriaQuery.Cache.Call
import CriteriaQuery.Session.Basic
import CriteriaQuery.Settings

/-!
# Caches of sessions

Sessions are kept by their keys. A session goes stale when the metadata of an entity that
takes part in it changes, so invalidation is by key, by entity, or of everything.
-/

namespace CriteriaQuery

/-- A cache of sessions. -/
abbrev SessionCache := Cache SessionKey Session

/-- The cache policy of the settings. -/
def Settings.cachePolicy (s : Settings) : CachePolicy :=
  ⟨s.cacheEnabled, s.cacheMaxEntries.toNat⟩

namespace SessionCache

/-- The session of a key, built from a loader's tables if there is none. -/
def load? (load : NodeLoader) (key : SessionKey) (c : SessionCache) :
    Option (Except CatalogError (Made Session) × SessionCache) :=
  c.getOrBuild? key fun c => some (Session.ofKey load key, c)

/-- Makes a key lose its session. -/
def invalidateKey? (key : SessionKey) (c : SessionCache) : Option SessionCache :=
  c.invalidate? fun k => decide (k = key)

/-- Makes the keys lose their sessions in which an entity takes part. -/
def invalidateEntity? (entity : String) (c : SessionCache) : Option SessionCache :=
  c.invalidate? fun k => k.entities.contains entity

/-- Makes all keys lose their sessions. -/
def clear? (c : SessionCache) : Option SessionCache := c.invalidate? fun _ => true

end SessionCache

end CriteriaQuery

import SdSearch.Engine.AccentTerms
import SdSearch.Engine.FeedbackSearch
import SdSearch.Engine.Fusion
import SdSearch.Engine.MoreLikeThis
import SdSearch.Engine.PhraseSearch
import SdSearch.Engine.ListedReader
import SdSearch.Engine.SampledAverage
import SdSearch.Engine.Persistence
import SdSearch.Engine.Synonyms
import SdSearch.Engine.TreeSearch
import SdSearch.Store.ManifestRewrite
import SdSearch.Store.Isolation
import SdSearch.Store.Pruning
import SdSearch.Store.Reclaimed
import SdSearch.Store.Append
import SdSearch.Store.DocumentCount
import SdSearch.Store.DeleteRuns
import SdSearch.Zsl.Canonical
import SdSearch.Zsl.MergesAgree
import SdSearch.Zsl.Listing
import SdSearch.Zsl.Codec
import SdSearch.Zsl.MergeSafety
import SdSearch.Zsl.StreamedTerms
import SdSearch.Php.Updates

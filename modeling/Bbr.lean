import Bbr.Review.StoreFrames
import Bbr.Tui.PostCover
import Bbr.Tui.Progress
import Bbr.Tui.AtRest
import Bbr.Bitbucket.PagingLaws
import Bbr.Review.Suggestion
import Bbr.Persist.SqliteStoreLaws
import Bbr.Tui.ChangeBlocks
import Bbr.Tui.LineSpansLaws
import Bbr.Tui.FileTreeLaws
import Bbr.Search.LiteralLaws
import Bbr.Search.FuzzyTraces
import Bbr.Search.SharedLines
import Bbr.Tui.CardWeaveLaws
import Bbr.Git.RemoteLaws
import Bbr.Tui.NavLaws
import Bbr.Highlight.DecorationLaws
import Bbr.Highlight.CapturePlanes
import Bbr.Highlight.LocalScopes
import Bbr.Api.MemberSearchLaws
import Bbr.Tui.NavigationRestoring
import Bbr.Tui.WovenRows
import Bbr.Http.RetryAfter
import Bbr.Highlight.ArchiveLaws
import Bbr.Highlight.Conflicts
import Bbr.Bitbucket.AuthRuns
import Bbr.Tui.ConfigReaders
import Bbr.Bitbucket.AuthInsertions
import Bbr.Review.SubmissionOrder
import Bbr.Review.LineOverflow
import Bbr.Bitbucket.Url
import Bbr.Tui.CodeVisibility
import Bbr.Tui.SubmissionTreeStored
import Bbr.Review.Threads
import Bbr.Tui.CommonRuns
import Bbr.Diff.Accepted
import Bbr.Tui.Agreement
